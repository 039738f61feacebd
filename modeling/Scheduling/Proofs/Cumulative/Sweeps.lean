import Mathlib.Data.List.Permutation
import Scheduling.Proofs.Cumulative.Sums
import Scheduling.Proofs.Cumulative.Walk

/-!
# First and last places

From a start on, an activity certainly executes up to its earliest end, or for its least length if
that is longer; up to an end, it does so from its latest start or for its least length. A sweep goes
over the segments once and moves the start, or the end, past every overloaded segment that is still
covered. What it moves past would cover an overloaded time, and where it stops none is covered. The
times and loads that are added on the way are not checked; next to sums of heights that fit a word,
and with bounds that are attained, this makes no difference.

Results:
* `TimeTable.Reached.push`, `TimeTable.Lowered.push`: what one segment preserves on the way.
* `TimeTable.pushStart_spec`, `TimeTable.pushEnd_spec`: what a whole sweep preserves.
* `TimeTable.Checked`, `TimeTable.checked_eq`: the sweeps with every sum checked give the same
  answers.
* `TimeTable.sweeps_extremal`: the sweeps find the first and the last place.
-/

namespace Scheduling

/-! ## Covered times -/

namespace ActivityBounds

/-- The activity certainly executes up to this time if it starts at `start`. -/
def coversTo (a : ActivityBounds) (start : Int) : Int := max a.endMin (start + a.lengthMin)

/-- The activity certainly executes from this time on if it ends at `stop`. -/
def coversFrom (a : ActivityBounds) (stop : Int) : Int := min a.startMax (stop - a.lengthMin)

end ActivityBounds

/-- The loads of the others, the sums of all contributions but that of the activity, fit a word. -/
structure Profile.OthersFit (bs : List ActivityBounds) (a : ActivityBounds) : Prop where
  low : ∀ t, Width.w64.Holds ((Profile.loadAt bs t).low - (a.contributionAt t).low)
  high : ∀ t, Width.w64.Holds ((Profile.loadAt bs t).high - (a.contributionAt t).high)

/-- With the heights of the activity, the loads of the others fit a word. -/
structure Profile.TotalsFit (bs : List ActivityBounds) (a : ActivityBounds) : Prop where
  low : ∀ t, Width.w64.Holds
    ((Profile.loadAt bs t).low - (a.contributionAt t).low + a.heightMin)
  high : ∀ t, Width.w64.Holds
    ((Profile.loadAt bs t).high - (a.contributionAt t).high + a.heightMax)

namespace Profile

variable {bs : List ActivityBounds} {a : ActivityBounds}

/-- The loads of the others are those of the list without the activity. -/
theorem loadAt_low_sub (mem : a ∈ bs) (t : Int) : (loadAt bs t).low - (a.contributionAt t).low =
    ((bs.erase a).map fun b => (b.contributionAt t).low).sum := by
  have all := List.sum_map_erase (fun b : ActivityBounds => (b.contributionAt t).low) mem
  simp only [loadAt]
  omega

theorem loadAt_high_sub (mem : a ∈ bs) (t : Int) :
    (loadAt bs t).high - (a.contributionAt t).high =
      ((bs.erase a).map fun b => (b.contributionAt t).high).sum := by
  have all := List.sum_map_erase (fun b : ActivityBounds => (b.contributionAt t).high) mem
  simp only [loadAt]
  omega

end Profile

namespace ActivityBounds

theorem contributionAt_between (a : ActivityBounds) (t : Int) :
    (min 0 a.heightMin ≤ (a.contributionAt t).low ∧
      (a.contributionAt t).low ≤ max 0 a.heightMin) ∧
    min 0 a.heightMax ≤ (a.contributionAt t).high ∧
      (a.contributionAt t).high ≤ max 0 a.heightMax := by
  unfold contributionAt
  split
  · simp only [mandatory]
    omega
  · split
    · simp only [possible]
      omega
    · simp only [Load.zero]
      omega

namespace SumsHold

variable {bs : List ActivityBounds} (sums : SumsHold bs) {a : ActivityBounds} (mem : a ∈ bs)
include sums mem

/-- If the sums of heights fit a word, the loads of the others do. -/
theorem othersFit : Profile.OthersFit bs a := by
  constructor <;> intro t
  · rw [Profile.loadAt_low_sub mem t]
    exact (sums.min.sublist (List.erase_sublist.map _)).holds_sum_map fun b _ =>
      (b.contributionAt_between t).1
  · rw [Profile.loadAt_high_sub mem t]
    exact (sums.max.sublist (List.erase_sublist.map _)).holds_sum_map fun b _ =>
      (b.contributionAt_between t).2

/-- So do those with the heights of the activity. -/
theorem totalsFit : Profile.TotalsFit bs a := by
  have order := List.perm_cons_erase mem
  constructor <;> intro t
  · rw [Profile.loadAt_low_sub mem t, Int.add_comm]
    exact (sums.min.perm (order.map _)).holds_add_sum_map fun b _ =>
      (b.contributionAt_between t).1
  · rw [Profile.loadAt_high_sub mem t, Int.add_comm]
    exact (sums.max.perm (order.map _)).holds_add_sum_map fun b _ =>
      (b.contributionAt_between t).2

end SumsHold

end ActivityBounds

namespace Profile

variable {p : Profile}

theorem lt_segments_of_span {segment : Nat} {start stop : Int}
    (h : p.span segment = .ok (start, stop)) : segment < p.segments := by
  obtain ⟨_, -, h⟩ := bind_eq_ok_iff.1 h
  obtain ⟨r, there, -⟩ := bind_eq_ok_iff.1 h
  rw [Table.read_eq_ok_iff, get?_eq_getElem?] at there
  have inside := (List.getElem?_eq_some_iff.1 there).1
  rw [segments, size_eq_length]
  omega

/-- An earlier segment ends before a later one starts. -/
theorem Stretch.stop_le (ascending : p.points.toList.Pairwise fun q r => q.time < r.time)
    {j k : Nat} {q r : TimePoint} {stop stop' : Int} (h : p.Stretch j q stop)
    (h' : p.Stretch k r stop') (lt : j < k) : stop ≤ r.time := by
  rcases h.gap r h'.mem with before | after
  · obtain ⟨inside, rfl⟩ := List.getElem?_eq_some_iff.1 h.getElem?
    obtain ⟨inside', rfl⟩ := List.getElem?_eq_some_iff.1 h'.getElem?
    have := List.pairwise_iff_getElem.1 ascending j k inside inside' lt
    omega
  · exact after

end Profile

namespace TimeTable

/-- The segment of the time is overloaded with the activity. -/
def OverloadedAt (t : TimeTable) (a : ActivityBounds) (time : Int) : Prop :=
  ∃ segment start stop, t.profile.span segment = .ok (start, stop) ∧ start ≤ time ∧ time < stop ∧
    t.isOverloadedWith a segment = .ok true

/-- A time of the window is overloaded. -/
def Blocked (t : TimeTable) (a : ActivityBounds) (start stop : Int) : Prop :=
  ∃ time, start ≤ time ∧ time < stop ∧ t.OverloadedAt a time

variable {t : TimeTable} {a : ActivityBounds}

/-- An overloaded time lies in an overloaded segment. -/
theorem OverloadedAt.exists_stretch
    (ascending : t.profile.points.toList.Pairwise fun q r => q.time < r.time) {time : Int}
    (h : t.OverloadedAt a time) :
    ∃ k q next, t.profile.Stretch k q next ∧ q.time ≤ time ∧ time < next ∧
      t.isOverloadedWith a k = .ok true := by
  obtain ⟨k, start, stop, span, le, lt, overloaded⟩ := h
  obtain ⟨q, next, stretch⟩ :=
    Profile.exists_stretch ascending (Profile.lt_segments_of_span span)
  obtain ⟨rfl, rfl⟩ : q.time = start ∧ next = stop := by
    simpa using stretch.span.symm.trans span
  exact ⟨k, q, next, stretch, le, lt, overloaded⟩

theorem overloadedAt_of_stretch {k : Nat} {q : TimePoint} {next : Int}
    (stretch : t.profile.Stretch k q next) (overloaded : t.isOverloadedWith a k = .ok true)
    {time : Int} (le : q.time ≤ time) (lt : time < next) : t.OverloadedAt a time :=
  ⟨k, q.time, next, stretch.span, le, lt, overloaded⟩

/-- The load of the others in a segment, if it fits a word. -/
theorem loadWithout_of_othersFit {bs : List ActivityBounds} (represents : t.profile.Represents bs)
    (fit : Profile.OthersFit bs a) {k : Nat} {q : TimePoint} {next : Int}
    (stretch : t.profile.Stretch k q next) :
    t.loadWithout a k = .ok ⟨q.load.low - (a.contributionAt q.time).low,
      q.load.high - (a.contributionAt q.time).high⟩ := by
  have load := (represents.load_of_mem stretch.mem).1
  rw [loadWithout_of_stretch stretch]
  exact Load.without_eq_ok_iff.2 ⟨load ▸ fit.low q.time, load ▸ fit.high q.time, rfl⟩

/-- Next to others whose loads fit a word, every segment is overloaded or not. -/
theorem exists_isOverloadedWith {bs : List ActivityBounds} (represents : t.profile.Represents bs)
    (fit : Profile.OthersFit bs a) {k : Nat} (lt : k < t.profile.segments) :
    ∃ overloaded, t.isOverloadedWith a k = .ok overloaded := by
  obtain ⟨q, next, stretch⟩ := Profile.exists_stretch represents.ascending lt
  have without := loadWithout_of_othersFit represents fit stretch
  simp only [isOverloadedWith, without, bind, Except.bind]
  exact ⟨_, rfl⟩

section Sweeps

variable (ascending : t.profile.points.toList.Pairwise fun q r => q.time < r.time)
  (decided : ∀ k < t.profile.segments, ∃ overloaded, t.isOverloadedWith a k = .ok overloaded)

/-! ## Upwards -/

/-- Before segment `k` a sweep has reached `start`: every earlier start covers an overloaded time,
and no overloaded segment before `k` is covered from there. -/
structure Reached (t : TimeTable) (a : ActivityBounds) (k : Nat) (start : Int) : Prop where
  least : a.startMin ≤ start
  missed : ∀ s, a.startMin ≤ s → s < start → s ≤ a.startMax → t.Blocked a s (a.coversTo s)
  passed : ∀ j < k, ∀ q next, t.profile.Stretch j q next → t.isOverloadedWith a j = .ok true →
    next ≤ start ∨ a.coversTo start ≤ start

include ascending in
/-- Where the rest of the segments is not covered, no overloaded time is. -/
theorem Reached.clear {k : Nat} {start : Int} (h : t.Reached a k start)
    (rest : ∀ j, k ≤ j → ∀ q next, t.profile.Stretch j q next →
      a.coversTo start ≤ max q.time start) :
    ¬ t.Blocked a start (a.coversTo start) := by
  rintro ⟨time, begun, upTo, overloaded⟩
  obtain ⟨j, q, next, stretch, le, lt, overloaded⟩ := overloaded.exists_stretch ascending
  rcases Nat.lt_or_ge j k with before | after
  · have := h.passed j before q next stretch overloaded
    omega
  · have := rest j after q next stretch
    omega

theorem Reached.skip {k : Nat} {start : Int} (h : t.Reached a k start)
    (spare : t.isOverloadedWith a k = .ok false) : t.Reached a (k + 1) start := by
  refine ⟨h.least, h.missed, fun j lt q next stretch overloaded => ?_⟩
  rcases Nat.lt_succ_iff_lt_or_eq.1 lt with before | rfl
  · exact h.passed j before q next stretch overloaded
  · rw [spare] at overloaded
    cases overloaded

include ascending in
/-- The start moves past an overloaded segment that is covered. -/
theorem Reached.push {k : Nat} {start : Int} (h : t.Reached a k start) {q : TimePoint} {next : Int}
    (stretch : t.profile.Stretch k q next) (overloaded : t.isOverloadedWith a k = .ok true)
    (ahead : a.startMin < next) (covered : max q.time start < a.coversTo start) :
    t.Reached a (k + 1) (if a.lengthMin > 0 then next else min next a.endMin) := by
  have order := stretch.lt
  have least := h.least
  unfold ActivityBounds.coversTo at covered
  refine ⟨by split <;> omega, fun s le lt upTo => ?_, fun j lt r next' stretch' _ => ?_⟩
  · by_cases before : s < start
    · exact h.missed s le before upTo
    · refine ⟨max q.time s, by omega, ?_,
        overloadedAt_of_stretch stretch overloaded (by omega) ?_⟩
      · unfold ActivityBounds.coversTo
        split at lt <;> omega
      · split at lt <;> omega
  · have upTo : next' ≤ next := by
      rcases Nat.lt_succ_iff_lt_or_eq.1 lt with before | rfl
      · have := stretch'.stop_le ascending stretch before
        omega
      · exact Int.le_of_eq (stretch'.unique stretch).2
    unfold ActivityBounds.coversTo
    split <;> omega

include ascending decided in
/-- A sweep upwards ends at the first start from which no overloaded time is covered. -/
theorem pushStart_spec {left k : Nat} {start : Int} (within : k + left = t.profile.segments)
    (ahead : ∀ j, k ≤ j → ∀ q next, t.profile.Stretch j q next → a.startMin < next)
    (h : t.Reached a k start) :
    ∃ r, t.pushStart a left k start = .ok r ∧ a.startMin ≤ r ∧
      (∀ s, a.startMin ≤ s → s < r → s ≤ a.startMax → t.Blocked a s (a.coversTo s)) ∧
      (r ≤ a.startMax → ¬ t.Blocked a r (a.coversTo r)) := by
  induction left generalizing k start with
  | zero =>
    refine ⟨start, rfl, h.least, h.missed, fun _ => h.clear ascending fun j le q next stretch => ?_⟩
    have := stretch.lt_segments
    omega
  | succ left ih =>
    have more : k < t.profile.segments := by omega
    obtain ⟨q, next, stretch⟩ := Profile.exists_stretch ascending more
    obtain ⟨overloaded, tested⟩ := decided k more
    have later := fun j (le : k + 1 ≤ j) => ahead j (by omega)
    unfold pushStart
    split
    · rename_i beyond
      exact ⟨start, rfl, h.least, h.missed, fun _ => by omega⟩
    · simp only [stretch.span, tested, bind, Except.bind]
      split
      · rename_i ended
        refine ⟨start, rfl, h.least, h.missed, fun _ => h.clear ascending
          fun j le r next' stretch' => ?_⟩
        have order : q.time ≤ r.time := by
          rcases Nat.lt_or_eq_of_le le with before | rfl
          · exact Int.le_trans (Int.le_of_lt stretch.lt) (stretch.stop_le ascending stretch' before)
          · rw [(stretch.unique stretch').1]
        unfold ActivityBounds.coversTo
        omega
      · rename_i covered
        cases overloaded with
        | false =>
          simp only [Bool.false_eq_true, if_false]
          exact ih (by omega) later (h.skip tested)
        | true =>
          simp only [if_true]
          exact ih (by omega) later (h.push ascending stretch tested
            (ahead k (Nat.le_refl _) q next stretch) (by
              unfold ActivityBounds.coversTo
              omega))

/-! ## Downwards -/

/-- After segment `k` a sweep has come down to `stop`: every later end covers an overloaded time,
and no overloaded segment from `k` on is covered up to there. -/
structure Lowered (t : TimeTable) (a : ActivityBounds) (k : Nat) (stop : Int) : Prop where
  greatest : stop ≤ a.endMax
  missed : ∀ e, stop < e → e ≤ a.endMax → a.endMin ≤ e → t.Blocked a (a.coversFrom e) e
  passed : ∀ j, k ≤ j → ∀ q next, t.profile.Stretch j q next →
    t.isOverloadedWith a j = .ok true → stop ≤ q.time ∨ stop ≤ a.coversFrom stop

include ascending in
theorem Lowered.clear {k : Nat} {stop : Int} (h : t.Lowered a k stop)
    (rest : ∀ j < k, ∀ q next, t.profile.Stretch j q next →
      min next stop ≤ a.coversFrom stop) :
    ¬ t.Blocked a (a.coversFrom stop) stop := by
  rintro ⟨time, begun, upTo, overloaded⟩
  obtain ⟨j, q, next, stretch, le, lt, overloaded⟩ := overloaded.exists_stretch ascending
  rcases Nat.lt_or_ge j k with before | after
  · have := rest j before q next stretch
    omega
  · have := h.passed j after q next stretch overloaded
    omega

theorem Lowered.skip {k : Nat} {stop : Int} (h : t.Lowered a (k + 1) stop)
    (spare : t.isOverloadedWith a k = .ok false) : t.Lowered a k stop := by
  refine ⟨h.greatest, h.missed, fun j le q next stretch overloaded => ?_⟩
  rcases Nat.lt_or_eq_of_le le with after | rfl
  · exact h.passed j after q next stretch overloaded
  · rw [spare] at overloaded
    cases overloaded

include ascending in
/-- The end moves before an overloaded segment that is covered. -/
theorem Lowered.push {k : Nat} {stop : Int} (h : t.Lowered a (k + 1) stop) {q : TimePoint}
    {next : Int} (stretch : t.profile.Stretch k q next)
    (overloaded : t.isOverloadedWith a k = .ok true) (behind : q.time < a.endMax)
    (covered : a.coversFrom stop < min next stop) :
    t.Lowered a k (if a.lengthMin > 0 then q.time else max q.time a.startMax) := by
  have order := stretch.lt
  have greatest := h.greatest
  unfold ActivityBounds.coversFrom at covered
  refine ⟨by split <;> omega, fun e lt le least => ?_, fun j le r next' stretch' _ => ?_⟩
  · by_cases after : stop < e
    · exact h.missed e after le least
    · refine ⟨min next e - 1, ?_, by omega,
        overloadedAt_of_stretch stretch overloaded ?_ (by omega)⟩
      · unfold ActivityBounds.coversFrom
        split at lt <;> omega
      · split at lt <;> omega
  · have downTo : q.time ≤ r.time := by
      rcases Nat.lt_or_eq_of_le le with after | rfl
      · have := stretch.stop_le ascending stretch' after
        omega
      · rw [(stretch.unique stretch').1]
    unfold ActivityBounds.coversFrom
    split <;> omega

include ascending decided in
/-- A sweep downwards ends at the last end up to which no overloaded time is covered. -/
theorem pushEnd_spec {k : Nat} {stop : Int} (within : k ≤ t.profile.segments)
    (behind : ∀ j < k, ∀ q next, t.profile.Stretch j q next → q.time < a.endMax)
    (h : t.Lowered a k stop) :
    ∃ r, t.pushEnd a k stop = .ok r ∧ r ≤ a.endMax ∧
      (∀ e, r < e → e ≤ a.endMax → a.endMin ≤ e → t.Blocked a (a.coversFrom e) e) ∧
      (a.endMin ≤ r → ¬ t.Blocked a (a.coversFrom r) r) := by
  induction k generalizing stop with
  | zero =>
    exact ⟨stop, rfl, h.greatest, h.missed, fun _ => h.clear ascending fun j lt => by omega⟩
  | succ k ih =>
    obtain ⟨q, next, stretch⟩ := Profile.exists_stretch ascending within
    obtain ⟨overloaded, tested⟩ := decided k within
    have earlier := fun j (lt : j < k) => behind j (by omega)
    unfold pushEnd
    split
    · rename_i below
      exact ⟨stop, rfl, h.greatest, h.missed, fun _ => by omega⟩
    · simp only [stretch.span, tested, bind, Except.bind]
      split
      · rename_i ended
        refine ⟨stop, rfl, h.greatest, h.missed, fun _ => h.clear ascending
          fun j lt r next' stretch' => ?_⟩
        have order : next' ≤ next := by
          rcases Nat.lt_succ_iff_lt_or_eq.1 lt with before | rfl
          · exact Int.le_trans (stretch'.stop_le ascending stretch before) (Int.le_of_lt stretch.lt)
          · exact Int.le_of_eq (stretch'.unique stretch).2
        unfold ActivityBounds.coversFrom
        omega
      · rename_i covered
        cases overloaded with
        | false =>
          simp only [Bool.false_eq_true, if_false]
          exact ih (by omega) earlier (h.skip tested)
        | true =>
          simp only [if_true]
          exact ih (by omega) earlier (h.push ascending stretch tested
            (behind k (Nat.lt_succ_self k) q next stretch) (by
              unfold ActivityBounds.coversFrom
              omega))

end Sweeps

end TimeTable

/-! ## Checked sums -/

namespace TimeTable.Checked

/-- `TimeTable.isOverloadedWith`, with every sum checked. -/
def isOverloadedWith (t : TimeTable) (a : ActivityBounds) (segment : Nat) : Except Fault Bool := do
  let others ← t.loadWithout a segment
  return t.capacity.excludes
    ⟨← Width.w64.add others.low a.heightMin, ← Width.w64.add others.high a.heightMax⟩

/-- `TimeTable.pushStart`, with every sum checked. -/
def pushStart (t : TimeTable) (a : ActivityBounds) : (left segment : Nat) → (start : Int) →
    Except Fault Int
  | 0, _, start => return start
  | left + 1, segment, start => do
    if start > a.startMax then return start
    let (segmentStart, segmentEnd) ← t.profile.span segment
    let stop ← Width.w64.add start a.lengthMin
    if max segmentStart start ≥ max a.endMin stop then return start
    if ← isOverloadedWith t a segment then
      let next := if a.lengthMin > 0 then segmentEnd else min segmentEnd a.endMin
      pushStart t a left (segment + 1) next
    else pushStart t a left (segment + 1) start

/-- `TimeTable.earliestStart`, with every sum checked. -/
def earliestStart (t : TimeTable) (a : ActivityBounds) : Except Fault Int :=
  let segment := t.profile.segmentContaining a.startMin
  pushStart t a (t.profile.segments - segment) segment a.startMin

/-- `TimeTable.pushEnd`, with every sum checked. -/
def pushEnd (t : TimeTable) (a : ActivityBounds) : (left : Nat) → (stop : Int) → Except Fault Int
  | 0, stop => return stop
  | segment + 1, stop => do
    if stop < a.endMin then return stop
    let (segmentStart, segmentEnd) ← t.profile.span segment
    let start ← Width.w64.sub stop a.lengthMin
    if min segmentEnd stop ≤ min a.startMax start then return stop
    if ← isOverloadedWith t a segment then
      pushEnd t a segment (if a.lengthMin > 0 then segmentStart else max segmentStart a.startMax)
    else pushEnd t a segment stop

/-- `TimeTable.latestEnd`, with every sum checked. -/
def latestEnd (t : TimeTable) (a : ActivityBounds) : Except Fault Int := do
  let last ← Width.w64.sub a.endMax 1
  pushEnd t a (t.profile.segmentContaining last + 1) a.endMax

end TimeTable.Checked

/-- The times that the sweeps compute fit a word. -/
structure ActivityBounds.TimesFit (a : ActivityBounds) : Prop where
  startMin_le : a.startMin ≤ a.endMin
  le_endMax : a.startMax ≤ a.endMax
  stop : ∀ s, a.startMin ≤ s → s ≤ a.startMax → Width.w64.Holds (s + a.lengthMin)
  start : ∀ e, a.endMin ≤ e → e ≤ a.endMax → Width.w64.Holds (e - a.lengthMin)
  last : Width.w64.Holds (a.endMax - 1)

/-- If all bounds are attained, the sums and differences lie between the first start and the last
end. -/
theorem ActivityBounds.timesFit_of_attained {a : ActivityBounds} (attained : a.toBounds.Attained)
    (room : a.startMin < a.endMax) (first : Width.w64.Holds a.startMin)
    (last : Width.w64.Holds a.endMax) : a.TimesFit := by
  obtain ⟨s₁, l₁, -, admits₁, latest⟩ := attained .startMax
  obtain ⟨s₂, l₂, -, admits₂, earliest⟩ := attained .endMin
  obtain ⟨s₃, l₃, nonneg, -, least⟩ := attained .lengthMin
  simp only [Bound.measure, Bounds.limit] at latest earliest least
  -- The last start leaves room for the least length, and so does the first end.
  have fits : a.startMax + a.lengthMin ≤ a.endMax := by
    have := admits₁.le_endMax
    have := admits₁.lengthMin_le
    omega
  have fits' : a.startMin ≤ a.endMin - a.lengthMin := by
    have := admits₂.startMin_le
    have := admits₂.lengthMin_le
    omega
  obtain ⟨above, -⟩ := first
  obtain ⟨-, below⟩ := last
  exact ⟨by omega, by omega, fun s le ge => ⟨by omega, by omega⟩,
    fun e le ge => ⟨by omega, by omega⟩, by omega, by omega⟩

namespace TimeTable.Checked

variable {t : TimeTable} {a : ActivityBounds}

/-- Next to others whose loads fit a word, also with the heights of the activity, a segment is
overloaded or not as without the checks. -/
theorem isOverloadedWith_eq {bs : List ActivityBounds} (represents : t.profile.Represents bs)
    (fit : Profile.OthersFit bs a) (totals : Profile.TotalsFit bs a) {k : Nat} {q : TimePoint}
    {next : Int} (stretch : t.profile.Stretch k q next) :
    isOverloadedWith t a k = t.isOverloadedWith a k := by
  have load := (represents.load_of_mem stretch.mem).1
  have low := totals.low q.time
  have high := totals.high q.time
  rw [← load] at low high
  simp only [isOverloadedWith, TimeTable.isOverloadedWith,
    loadWithout_of_othersFit represents fit stretch, bind, Except.bind,
    Width.add_eq_ok_iff.2 ⟨low, rfl⟩, Width.add_eq_ok_iff.2 ⟨high, rfl⟩]

section Sweeps

variable (ascending : t.profile.points.toList.Pairwise fun q r => q.time < r.time)
  (times : a.TimesFit) (agree : ∀ k q next, t.profile.Stretch k q next →
    isOverloadedWith t a k = t.isOverloadedWith a k)
include ascending times agree

/-- The sweep upwards never reaches a start before the first one. -/
theorem pushStart_eq {left k : Nat} {start : Int} (least : a.startMin ≤ start)
    (ahead : ∀ j, k ≤ j → ∀ q next, t.profile.Stretch j q next → a.startMin < next) :
    pushStart t a left k start = t.pushStart a left k start := by
  induction left generalizing k start with
  | zero => rfl
  | succ left ih =>
    have later := fun j (le : k + 1 ≤ j) => ahead j (by omega)
    simp only [pushStart, TimeTable.pushStart]
    split
    · rfl
    rename_i begins
    cases known : t.profile.span k with
    | error fault => rfl
    | ok span =>
      obtain ⟨q, stop, stretch⟩ :=
        Profile.exists_stretch ascending (Profile.lt_segments_of_span known)
      obtain rfl := Except.ok.inj (stretch.span.symm.trans known)
      have next : a.startMin ≤ if a.lengthMin > 0 then stop else min stop a.endMin := by
        have := ahead k (Nat.le_refl k) q stop stretch
        have := times.startMin_le
        split <;> omega
      have sum := times.stop start least (by omega)
      simp only [bind, Except.bind, Width.add_eq_ok_iff.2 ⟨sum, rfl⟩, agree k q stop stretch,
        ih least later, ih next later]

/-- The sweep downwards never reaches an end after the last one. -/
theorem pushEnd_eq {k : Nat} {stop : Int} (most : stop ≤ a.endMax)
    (behind : ∀ j < k, ∀ q next, t.profile.Stretch j q next → q.time < a.endMax) :
    pushEnd t a k stop = t.pushEnd a k stop := by
  induction k generalizing stop with
  | zero => rfl
  | succ k ih =>
    have earlier := fun j (lt : j < k) => behind j (by omega)
    simp only [pushEnd, TimeTable.pushEnd]
    split
    · rfl
    rename_i ends
    cases known : t.profile.span k with
    | error fault => rfl
    | ok span =>
      obtain ⟨q, next, stretch⟩ :=
        Profile.exists_stretch ascending (Profile.lt_segments_of_span known)
      obtain rfl := Except.ok.inj (stretch.span.symm.trans known)
      have last : (if a.lengthMin > 0 then q.time else max q.time a.startMax) ≤ a.endMax := by
        have := behind k (Nat.lt_succ_self k) q next stretch
        have := times.le_endMax
        split <;> omega
      have difference := times.start stop (by omega) most
      simp only [bind, Except.bind, Width.sub_eq_ok_iff.2 ⟨difference, rfl⟩, agree k q next stretch,
        ih most earlier, ih last earlier]

end Sweeps

end TimeTable.Checked

namespace TimeTable

variable {t : TimeTable} {a : ActivityBounds}

/-! ## Places -/

section Places

variable {bs : List ActivityBounds} (represents : t.profile.Represents bs) (mem : a ∈ bs)
  (room : a.startMin < a.endMax)
include represents mem room

/-- The sweep upwards starts at a segment that the first start does not come after. -/
theorem exists_first : t.profile.segmentContaining a.startMin < t.profile.segments ∧
    (∀ j, t.profile.segmentContaining a.startMin ≤ j → ∀ q next, t.profile.Stretch j q next →
      a.startMin < next) ∧
    ∀ j < t.profile.segmentContaining a.startMin, ∀ q next, t.profile.Stretch j q next →
      next ≤ a.startMin := by
  have ascending := represents.ascending
  obtain ⟨⟨first, mem₁, eq₁⟩, ⟨last, mem₂, eq₂⟩, -⟩ := represents.changes a mem room
  obtain ⟨lt, q, stop, stretch, le, after⟩ := Profile.segmentContaining_spec ascending
    ⟨first, mem₁, Int.le_of_eq eq₁⟩ ⟨last, mem₂, show a.startMin < last.time by omega⟩
  refine ⟨lt, fun j le' r next stretch' => ?_, fun j lt r next stretch' => ?_⟩
  · rcases Nat.lt_or_eq_of_le le' with later | rfl
    · have := stretch.stop_le ascending stretch' later
      have := stretch'.lt
      omega
    · rw [← (stretch.unique stretch').2]
      exact after
  · have := stretch'.stop_le ascending stretch lt
    omega

/-- The sweep downwards starts at a segment that the last end does not come before. -/
theorem exists_last : t.profile.segmentContaining (a.endMax - 1) < t.profile.segments ∧
    (∀ j < t.profile.segmentContaining (a.endMax - 1) + 1, ∀ q next,
      t.profile.Stretch j q next → q.time < a.endMax) ∧
    ∀ j, t.profile.segmentContaining (a.endMax - 1) + 1 ≤ j → ∀ q next,
      t.profile.Stretch j q next → a.endMax ≤ q.time := by
  have ascending := represents.ascending
  obtain ⟨⟨first, mem₁, eq₁⟩, ⟨last, mem₂, eq₂⟩, -⟩ := represents.changes a mem room
  obtain ⟨lt, q, stop, stretch, le, after⟩ := Profile.segmentContaining_spec ascending
    (t := a.endMax - 1) ⟨first, mem₁, by omega⟩ ⟨last, mem₂, by omega⟩
  refine ⟨lt, fun j lt' r next stretch' => ?_, fun j le' r next stretch' => ?_⟩
  · rcases Nat.lt_succ_iff_lt_or_eq.1 lt' with earlier | rfl
    · have := stretch'.stop_le ascending stretch earlier
      have := stretch'.lt
      omega
    · rw [(stretch'.unique stretch).1]
      omega
  · have := stretch.stop_le ascending stretch' le'
    omega

variable (fit : Profile.OthersFit bs a)
include fit

/-- The earliest start is the first one from which the activity covers no overloaded time. -/
theorem earliestStart_spec :
    ∃ r, t.earliestStart a = .ok r ∧ a.startMin ≤ r ∧
      (∀ s, a.startMin ≤ s → s < r → s ≤ a.startMax → t.Blocked a s (a.coversTo s)) ∧
      (r ≤ a.startMax → ¬ t.Blocked a r (a.coversTo r)) := by
  obtain ⟨lt, ahead, passed⟩ := exists_first represents mem room
  exact pushStart_spec represents.ascending (fun k => exists_isOverloadedWith represents fit)
    (by omega) ahead ⟨Int.le_refl _, fun s le lt => by omega,
      fun j lt q next stretch _ => .inl (passed j lt q next stretch)⟩

/-- The latest end is the last one up to which the activity covers no overloaded time. -/
theorem latestEnd_spec :
    ∃ r, t.latestEnd a = .ok r ∧ r ≤ a.endMax ∧
      (∀ e, r < e → e ≤ a.endMax → a.endMin ≤ e → t.Blocked a (a.coversFrom e) e) ∧
      (a.endMin ≤ r → ¬ t.Blocked a (a.coversFrom r) r) := by
  obtain ⟨lt, behind, passed⟩ := exists_last represents mem room
  exact pushEnd_spec represents.ascending (fun k => exists_isOverloadedWith represents fit)
    (by omega) behind ⟨Int.le_refl _, fun e lt le => by omega,
      fun j le q next stretch _ => .inl (passed j le q next stretch)⟩

/-- With every sum checked, the sweeps give the same answers. -/
theorem checked_eq (totals : Profile.TotalsFit bs a) (times : a.TimesFit) :
    Checked.earliestStart t a = t.earliestStart a ∧ Checked.latestEnd t a = t.latestEnd a := by
  have agree (k : Nat) (q : TimePoint) (next : Int) (stretch : t.profile.Stretch k q next) :=
    Checked.isOverloadedWith_eq represents fit totals stretch
  constructor
  · exact Checked.pushStart_eq represents.ascending times agree (Int.le_refl _)
      (exists_first represents mem room).2.1
  · simp only [Checked.latestEnd, Width.sub_eq_ok_iff.2 ⟨times.last, rfl⟩, bind, Except.bind]
    exact Checked.pushEnd_eq represents.ascending times agree (Int.le_refl _)
      (exists_last represents mem room).2.1

end Places

/-- On the profile of a list of activities both sweeps answer, so neither reads a segment that is
not there. The first one finds the first start, and the second one the last end, with which the
activity covers no overloaded time. If the sums of heights fit a word and the bounds of the activity
are attained, no sum that is computed on the way exceeds a word. -/
theorem sweeps_extremal {bs : List ActivityBounds} {p : Profile} {a : ActivityBounds}
    (capacity : Capacity) (ordered : ∀ b ∈ bs, b.Ordered) (made : Profile.build bs = .ok p)
    (mem : a ∈ bs) (room : a.startMin < a.endMax) (fit : Profile.OthersFit bs a) :
    (∃ r, (⟨p, capacity⟩ : TimeTable).earliestStart a = .ok r ∧
      (∀ s, a.startMin ≤ s → s < r → s ≤ a.startMax → ∃ time, s ≤ time ∧
        time < max a.endMin (s + a.lengthMin) ∧
        (⟨p, capacity⟩ : TimeTable).OverloadedAt a time) ∧
      (r ≤ a.startMax → ∀ time, r ≤ time → time < max a.endMin (r + a.lengthMin) →
        ¬ (⟨p, capacity⟩ : TimeTable).OverloadedAt a time)) ∧
    (∃ r, (⟨p, capacity⟩ : TimeTable).latestEnd a = .ok r ∧
      (∀ e, r < e → e ≤ a.endMax → a.endMin ≤ e → ∃ time,
        min a.startMax (e - a.lengthMin) ≤ time ∧ time < e ∧
        (⟨p, capacity⟩ : TimeTable).OverloadedAt a time) ∧
      (a.endMin ≤ r → ∀ time, min a.startMax (r - a.lengthMin) ≤ time → time < r →
        ¬ (⟨p, capacity⟩ : TimeTable).OverloadedAt a time)) ∧
    (ActivityBounds.SumsHold bs → a.toBounds.Attained → Width.w64.Holds a.startMin →
      Width.w64.Holds a.endMax →
        Checked.earliestStart ⟨p, capacity⟩ a = (⟨p, capacity⟩ : TimeTable).earliestStart a ∧
          Checked.latestEnd ⟨p, capacity⟩ a = (⟨p, capacity⟩ : TimeTable).latestEnd a) := by
  have represents := Profile.represents_of_build ordered made
  obtain ⟨start, first, -, missed, clear⟩ :=
    earliestStart_spec (t := ⟨p, capacity⟩) represents mem room fit
  obtain ⟨stop, last, -, missed', clear'⟩ :=
    latestEnd_spec (t := ⟨p, capacity⟩) represents mem room fit
  refine ⟨⟨start, first, missed, fun le time begun upTo overloaded =>
      clear le ⟨time, begun, upTo, overloaded⟩⟩,
    ⟨stop, last, missed', fun ge time begun upTo overloaded =>
      clear' ge ⟨time, begun, upTo, overloaded⟩⟩, fun sums attained least most => ?_⟩
  exact checked_eq represents mem room fit (sums.totalsFit mem)
    (ActivityBounds.timesFit_of_attained attained room least most)

/-- A movable activity of length 3 between two fixed ones. -/
def mover : ActivityBounds := ⟨⟨0, 7, 3, 10, 3, 3⟩, 1, 1, false, false⟩

def yard : List ActivityBounds :=
  [mover, ⟨⟨2, 2, 4, 4, 2, 2⟩, 2, 2, true, true⟩, ⟨⟨8, 8, 9, 9, 1, 1⟩, 2, 2, true, true⟩]

def yardTable : TimeTable where
  profile := ⟨.ofList [⟨0, ⟨0, 1⟩, 0⟩, ⟨2, ⟨2, 3⟩, 1⟩, ⟨4, ⟨0, 1⟩, 0⟩, ⟨8, ⟨2, 3⟩, 1⟩,
    ⟨9, ⟨0, 1⟩, 0⟩, ⟨10, ⟨0, 0⟩, 0⟩]⟩
  capacity := ⟨0, 2⟩

/-- The mover starts when the first one has ended, and ends when the second one starts. -/
theorem sweeps_extremal_mover :
    (∀ b ∈ yard, b.Ordered) ∧ Profile.build yard = .ok yardTable.profile ∧ mover ∈ yard ∧
      mover.startMin < mover.endMax ∧ Profile.OthersFit yard mover ∧
      ActivityBounds.SumsHold yard ∧ mover.toBounds.Attained ∧
      yardTable.earliestStart mover = .ok 4 ∧
      (∃ time, 3 ≤ time ∧ time < 6 ∧ yardTable.OverloadedAt mover time) ∧
      (∀ time, 4 ≤ time → time < 7 → ¬ yardTable.OverloadedAt mover time) ∧
      yardTable.latestEnd mover = .ok 8 ∧
      (∃ time, 6 ≤ time ∧ time < 9 ∧ yardTable.OverloadedAt mover time) ∧
      (∀ time, 5 ≤ time → time < 8 → ¬ yardTable.OverloadedAt mover time) ∧
      Checked.earliestStart yardTable mover = .ok 4 ∧
      Checked.latestEnd yardTable mover = .ok 8 := by
  have ordered : ∀ b ∈ yard, b.Ordered := by decide
  have made : Profile.build yard = .ok yardTable.profile := by cbv
  have mem : mover ∈ yard := List.mem_cons_self
  have sums : ActivityBounds.SumsHold yard := by decide
  have fit : Profile.OthersFit yard mover := sums.othersFit mem
  have attained : mover.toBounds.Attained := by
    refine Bounds.Settled.attained ?_
    constructor <;> decide
  obtain ⟨⟨start, first, missed, clear⟩, ⟨stop, last, missed', clear'⟩, checked⟩ :=
    sweeps_extremal yardTable.capacity ordered made mem (by decide) fit
  have earliest : yardTable.earliestStart mover = .ok 4 := rfl
  have latest : yardTable.latestEnd mover = .ok 8 := rfl
  obtain rfl : 4 = start := Except.ok.inj (earliest.symm.trans first)
  obtain rfl : 8 = stop := Except.ok.inj (latest.symm.trans last)
  obtain ⟨checked, checked'⟩ := checked sums attained (by decide) (by decide)
  exact ⟨ordered, made, mem, by decide, fit, sums, attained, earliest,
    missed 3 (by decide) (by decide) (by decide), clear (by decide), latest,
    missed' 9 (by decide) (by decide) (by decide), clear' (by decide), checked.trans earliest,
    checked'.trans latest⟩

end TimeTable

end Scheduling
