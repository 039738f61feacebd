import Scheduling.Proofs.Cumulative.Level
import Scheduling.Proofs.Cumulative.Span

/-!
# Profiles that agree on a window

An activity is held against the segments between its earliest start and its latest end, and against
no others. Activities that a span misses change no segment within the span, so that the profiles
with and without them look the same to every activity that the span contains. The segments may have
other numbers, so that both profiles are walked side by side.

Results:
* `Profile.mem_points_iff`: the points of a profile, from the activities alone.
* `Profile.Agree`, `Profile.agree_of_perm`: activities that a span misses do not matter within it.
* `Profile.Agree.exists_next`, `Profile.Agree.exists_previous`: one step of a walk side by side.
* `Profile.isConsistent_of_perm`: without such activities a profile is still consistent.
-/

namespace Scheduling

namespace ActivityBounds

/-- The contribution of the activity changes at a time. -/
def ChangesAt (b : ActivityBounds) (t : Int) : Prop :=
  b.startMin < b.endMax ∧ (t = b.startMin ∨ t = b.endMax ∨
    b.hasMandatoryPart = true ∧ (t = b.startMax ∨ t = b.endMin))

theorem exists_delta_iff {b : ActivityBounds} {ds : List Delta} (h : b.deltas = .ok ds) {t : Int} :
    (∃ d ∈ ds, d.time = t) ↔ b.ChangesAt t := by
  rcases deltas_eq_ok h with ⟨noRoom, rfl⟩ | ⟨room, none, rfl⟩ | ⟨room, some, rfl⟩
  · simp [ChangesAt, Int.not_lt.2 noRoom]
  · simp [ChangesAt, room, none, eq_comm]
  · simp [ChangesAt, room, some, eq_comm]

section Settled

variable {b : ActivityBounds} (settled : b.toBounds.Settled) {s : Span} {t : Int}
include settled

theorem ordered_of_settled : b.Ordered := ⟨settled.start_le, settled.end_le⟩

/-- The contribution changes between the earliest start and the latest end only. -/
theorem ChangesAt.between (h : b.ChangesAt t) : b.startMin ≤ t ∧ t ≤ b.endMax := by
  obtain ⟨s1, s2, s3, s4, s5, s6, s7, s8, s9, s10, s11, s12⟩ := settled
  obtain ⟨room, rfl | rfl | ⟨mandatory, rfl | rfl⟩⟩ := h
  · omega
  · omega
  · omega
  · omega

/-- Outside of its bounds an activity contributes nothing. -/
theorem contributionAt_eq_zero (outside : t < b.startMin ∨ b.endMax ≤ t) :
    b.contributionAt t = .zero ∧ b.overlapAt t = 0 := by
  obtain ⟨s1, s2, s3, s4, s5, s6, s7, s8, s9, s10, s11, s12⟩ := settled
  have uncertain : ¬ b.isMandatoryAt t = true := fun certain => by
    obtain ⟨-, begun, upTo⟩ := isMandatoryAt_eq_true_iff.1 certain
    omega
  have idle : ¬ (decide (b.startMin ≤ t) && decide (t < b.endMax)) = true := by
    simp only [Bool.and_eq_true, decide_eq_true_eq]
    omega
  unfold contributionAt overlapAt
  rw [if_neg uncertain, if_neg uncertain, if_neg idle]
  exact ⟨rfl, rfl⟩

/-- Within a span that misses the activity it contributes nothing. -/
theorem contributionAt_of_misses (misses : s.Misses b.toBounds) (le : s.start ≤ t)
    (lt : t < s.stop) : b.contributionAt t = .zero ∧ b.overlapAt t = 0 := by
  refine contributionAt_eq_zero settled ?_
  unfold Span.Misses at misses
  omega

end Settled

end ActivityBounds

namespace Profile

variable {bs bs' gone : List ActivityBounds} {p p' : Profile} {s : Span}

/-! ## The points of a profile -/

/-- The changes of all activities are those of the single ones. -/
theorem exists_mem_flatten_iff {dss : List (List Delta)}
    (made : bs.mapM ActivityBounds.deltas = .ok dss) {t : Int} :
    (∃ d ∈ dss.flatten, d.time = t) ↔ ∃ b ∈ bs, b.ChangesAt t := by
  induction bs generalizing dss with
  | nil =>
    cases made
    simp
  | cons b bs ih =>
    rw [List.mapM_cons] at made
    obtain ⟨ds, first, made⟩ := bind_eq_ok_iff.1 made
    obtain ⟨rest, later, made⟩ := bind_eq_ok_iff.1 made
    cases made
    simp only [List.flatten_cons, List.mem_append, or_and_right, exists_or, List.mem_cons,
      exists_eq_left, ih later, ActivityBounds.exists_delta_iff first]

/-- There is a point at a time exactly if some contribution changes then. -/
theorem exists_point_iff (h : build bs = .ok p) {t : Int} :
    (∃ q ∈ p.points.toList, q.time = t) ↔ ∃ b ∈ bs, b.ChangesAt t := by
  obtain ⟨dss, made, h⟩ := bind_eq_ok_iff.1 h
  obtain ⟨points, accumulated, h⟩ := bind_eq_ok_iff.1 h
  cases h
  have perm := List.mergeSort_perm dss.flatten fun d e => decide (d.time ≤ e.time)
  obtain ⟨-, times, changes, -⟩ := accumulate_spec (sorted_of_mergeSort dss.flatten) accumulated
  have list : (Table.ofList points).toList = points := by simp [Table.ofList, Table.toList]
  rw [← exists_mem_flatten_iff made, list]
  constructor
  · rintro ⟨q, mem, rfl⟩
    obtain ⟨d, mem', same⟩ := times q mem
    exact ⟨d, perm.mem_iff.1 mem', same⟩
  · rintro ⟨d, mem, rfl⟩
    exact changes d (perm.mem_iff.2 mem)

/-- The points of a profile: where some contribution changes, with the sums there. -/
theorem mem_points_iff (settled : ∀ b ∈ bs, b.toBounds.Settled) (h : build bs = .ok p)
    {q : TimePoint} : q ∈ p.points.toList ↔ (∃ b ∈ bs, b.ChangesAt q.time) ∧
      q.load = loadAt bs q.time ∧ q.overlapping = overlappingAt bs q.time := by
  have represents := represents_of_build
    (fun b mem => ActivityBounds.ordered_of_settled (settled b mem)) h
  rw [← exists_point_iff h]
  constructor
  · intro mem
    exact ⟨⟨q, mem, rfl⟩, represents.load_of_mem mem⟩
  · rintro ⟨⟨r, mem, same⟩, load, overlapping⟩
    obtain ⟨load', overlapping'⟩ := represents.load_of_mem mem
    have eq : r = q := by
      cases q
      cases r
      simp_all
    exact eq ▸ mem

/-! ## Leaving activities out -/

section Gone

variable (perm : bs.Perm (bs' ++ gone)) (settled : ∀ b ∈ bs, b.toBounds.Settled)
  (misses : ∀ b ∈ gone, s.Misses b.toBounds)
include perm settled misses

/-- Within a span the activities that it misses contribute nothing. -/
theorem loadAt_of_perm {t : Int} (le : s.start ≤ t) (lt : t < s.stop) :
    loadAt bs t = loadAt bs' t ∧ overlappingAt bs t = overlappingAt bs' t := by
  have none (b : ActivityBounds) (mem : b ∈ gone) :=
    ActivityBounds.contributionAt_of_misses
      (settled b (perm.mem_iff.2 (List.mem_append_right _ mem))) (misses b mem) le lt
  have low : (gone.map fun b => (b.contributionAt t).low) = gone.map fun _ => 0 :=
    List.map_congr_left fun b mem => by rw [(none b mem).1]; rfl
  have high : (gone.map fun b => (b.contributionAt t).high) = gone.map fun _ => 0 :=
    List.map_congr_left fun b mem => by rw [(none b mem).1]; rfl
  have overlap : (gone.map fun b => b.overlapAt t) = gone.map fun _ => 0 :=
    List.map_congr_left fun b mem => (none b mem).2
  simp only [loadAt, overlappingAt, (perm.map _).sum_eq, List.map_append, List.sum_append, low,
    high, overlap]
  simp

/-- Strictly within the span they change nothing. -/
theorem exists_changesAt_iff {t : Int} (lt : s.start < t) (lt' : t < s.stop) :
    (∃ b ∈ bs, b.ChangesAt t) ↔ ∃ b ∈ bs', b.ChangesAt t := by
  constructor
  · rintro ⟨b, mem, changes⟩
    rcases List.mem_append.1 (perm.mem_iff.1 mem) with kept | dropped
    · exact ⟨b, kept, changes⟩
    · have between := ActivityBounds.ChangesAt.between (settled b mem) changes
      have outside := misses b dropped
      unfold Span.Misses at outside
      omega
  · rintro ⟨b, mem, changes⟩
    exact ⟨b, perm.mem_iff.2 (List.mem_append_left _ mem), changes⟩

end Gone

/-! ## Walking side by side -/

section Ascending

variable {l : List TimePoint} (ascending : l.Pairwise fun q r => q.time < r.time)
include ascending

theorem lt_of_time_lt {i j : Nat} {q r : TimePoint} (here : l[i]? = some q)
    (there : l[j]? = some r) (lt : q.time < r.time) : i < j := by
  obtain ⟨inside, rfl⟩ := List.getElem?_eq_some_iff.1 here
  obtain ⟨inside', rfl⟩ := List.getElem?_eq_some_iff.1 there
  rcases Nat.lt_trichotomy i j with before | rfl | after
  · exact before
  · omega
  · have := List.pairwise_iff_getElem.1 ascending j i inside' inside after
    omega

theorem eq_of_time_eq {q r : TimePoint} (mem : q ∈ l) (mem' : r ∈ l) (same : q.time = r.time) :
    q = r := by
  obtain ⟨i, inside, rfl⟩ := List.getElem_of_mem mem
  obtain ⟨j, inside', rfl⟩ := List.getElem_of_mem mem'
  have order := List.pairwise_iff_getElem.1 ascending
  rcases Nat.lt_trichotomy i j with before | rfl | after
  · have := order i j inside inside' before
    omega
  · rfl
  · have := order j i inside' inside after
    omega

end Ascending

theorem Stretch.lt_segments {segment : Nat} {q : TimePoint} {stop : Int}
    (h : p.Stretch segment q stop) : segment < p.segments := by
  obtain ⟨r, there, -⟩ := h.exists_next
  have inside := (List.getElem?_eq_some_iff.1 there).1
  rw [segments, size_eq_length]
  omega

theorem Stretch.getElem? {segment : Nat} {q : TimePoint} {stop : Int}
    (h : p.Stretch segment q stop) : p.points.toList[segment]? = some q := by
  rw [← get?_eq_getElem?]
  exact Table.read_eq_ok_iff.1 h.point

/-- A segment starts at every point but the last one. -/
theorem exists_stretch_of_lt (ascending : p.points.toList.Pairwise fun q r => q.time < r.time)
    {segment : Nat} {q : TimePoint} (here : p.points.toList[segment]? = some q)
    (later : ∃ r ∈ p.points.toList, q.time < r.time) : ∃ next, p.Stretch segment q next := by
  obtain ⟨r, mem, lt⟩ := later
  obtain ⟨j, inside, rfl⟩ := List.getElem_of_mem mem
  have before := lt_of_time_lt ascending here (List.getElem?_eq_getElem inside) lt
  have within : segment < p.segments := by
    rw [segments, size_eq_length]
    omega
  obtain ⟨q', next, stretch⟩ := exists_stretch ascending within
  obtain rfl : q' = q := Option.some.inj (stretch.getElem?.symm.trans here)
  exact ⟨next, stretch⟩

/-- Between two times at which both have points, the profiles have the same points. -/
structure Agree (p p' : Profile) (start stop : Int) : Prop where
  ascending : p.points.toList.Pairwise fun q r => q.time < r.time
  ascending' : p'.points.toList.Pairwise fun q r => q.time < r.time
  mem_iff : ∀ q : TimePoint, start ≤ q.time → q.time < stop →
    (q ∈ p.points.toList ↔ q ∈ p'.points.toList)
  first : ∃ q ∈ p.points.toList, q.time = start
  last : ∃ q ∈ p.points.toList, q.time = stop
  last' : ∃ q ∈ p'.points.toList, q.time = stop
  lt : start < stop

/-- Both profiles have a point at the time, with the given numbers. -/
structure Meet (p p' : Profile) (k k' : Nat) (t : Int) : Prop where
  here : ∃ q, p.points.toList[k]? = some q ∧ q.time = t
  here' : ∃ q, p'.points.toList[k']? = some q ∧ q.time = t

/-- An activity within the span sees the same points with and without those that the span misses. -/
theorem agree_of_perm (perm : bs.Perm (bs' ++ gone)) (settled : ∀ b ∈ bs, b.toBounds.Settled)
    (misses : ∀ b ∈ gone, s.Misses b.toBounds) (made : build bs = .ok p) (made' : build bs' = .ok p')
    {a : ActivityBounds} (mem : a ∈ bs') (contains : s.Contains a.toBounds)
    (room : a.startMin < a.endMax) : p.Agree p' a.startMin a.endMax := by
  have member (b : ActivityBounds) (mem : b ∈ bs') : b ∈ bs :=
    perm.mem_iff.2 (List.mem_append_left _ mem)
  have settled' (b : ActivityBounds) (mem : b ∈ bs') : b.toBounds.Settled := settled b (member b mem)
  have represents := represents_of_build
    (fun b mem => ActivityBounds.ordered_of_settled (settled b mem)) made
  have represents' := represents_of_build
    (fun b mem => ActivityBounds.ordered_of_settled (settled' b mem)) made'
  obtain ⟨first, last, -⟩ := represents.changes a (member a mem) room
  refine ⟨represents.ascending, represents'.ascending, fun q le lt => ?_, first, last,
    (represents'.changes a mem room).2.1, room⟩
  have le' := Int.le_trans contains.1 le
  have lt' := Int.lt_of_lt_of_le lt contains.2
  obtain ⟨load, overlapping⟩ := loadAt_of_perm perm settled misses le' lt'
  rw [mem_points_iff settled made, mem_points_iff settled' made', load, overlapping]
  refine and_congr_left fun _ => ?_
  by_cases start : q.time = a.startMin
  · -- The span may start here as well, where an activity that it misses may end.
    have changes : a.ChangesAt q.time := ⟨room, .inl start⟩
    exact iff_of_true ⟨a, member a mem, changes⟩ ⟨a, mem, changes⟩
  · have begins := contains.1
    exact exists_changesAt_iff perm settled misses (by omega) lt'

namespace Agree

variable {start stop : Int}

theorem symm (h : p.Agree p' start stop) : p'.Agree p start stop := by
  refine ⟨h.ascending', h.ascending, fun q le lt => (h.mem_iff q le lt).symm, ?_, h.last', h.last,
    h.lt⟩
  obtain ⟨q, mem, rfl⟩ := h.first
  exact ⟨q, (h.mem_iff q (Int.le_refl _) h.lt).1 mem, rfl⟩

/-- Within the window the next point of one profile is not later than that of the other. -/
theorem next_le (h : p.Agree p' start stop) {k k' : Nat} {q q' : TimePoint} {next next' : Int}
    (stretch : p.Stretch k q next) (stretch' : p'.Stretch k' q' next') (same : q.time = q'.time)
    (le : start ≤ q.time) (lt : q.time < stop) : next ≤ stop ∧ next ≤ next' := by
  have upTo : next ≤ stop := by
    obtain ⟨r, mem, last⟩ := h.last
    have := stretch.gap r mem
    omega
  refine ⟨upTo, ?_⟩
  obtain ⟨r, there, rfl⟩ := stretch'.exists_next
  rcases Int.lt_or_le r.time stop with inside | beyond
  · have order := stretch'.lt
    have mem := (h.mem_iff r (by omega) inside).2 (List.mem_of_getElem? there)
    have := stretch.gap r mem
    omega
  · omega

/-- Within the window the previous point of one profile is not earlier than that of the other. -/
theorem le_previous (h : p.Agree p' start stop) {k k' : Nat} {q q' : TimePoint} {t : Int}
    (stretch : p.Stretch k q t) (stretch' : p'.Stretch k' q' t) (lt : start < t) (le : t ≤ stop) :
    start ≤ q.time ∧ q.time ≤ q'.time := by
  have after : start ≤ q.time := by
    obtain ⟨r, mem, first⟩ := h.first
    have := stretch.gap r mem
    omega
  have order := stretch.lt
  have mem := (h.mem_iff q after (by omega)).1 stretch.mem
  have := stretch'.gap q mem
  omega

variable (h : p.Agree p' start stop)
include h

/-- From points at the same time the next segments are the same. -/
theorem exists_next {k k' : Nat} {t : Int} (meet : p.Meet p' k k' t) (le : start ≤ t)
    (lt : t < stop) : ∃ q next, q.time = t ∧ next ≤ stop ∧ p.Stretch k q next ∧
      p'.Stretch k' q next ∧ p.Meet p' (k + 1) (k' + 1) next := by
  obtain ⟨⟨q, here, rfl⟩, q', here', same⟩ := meet
  obtain ⟨last, mem, eq⟩ := h.last
  obtain ⟨last', mem', eq'⟩ := h.last'
  obtain ⟨next, stretch⟩ := exists_stretch_of_lt h.ascending here ⟨last, mem, by omega⟩
  obtain ⟨next', stretch'⟩ := exists_stretch_of_lt h.ascending' here' ⟨last', mem', by omega⟩
  obtain rfl : q' = q := eq_of_time_eq h.ascending' stretch'.mem
    ((h.mem_iff q le lt).1 stretch.mem) same
  obtain ⟨upTo, first⟩ := h.next_le stretch stretch' rfl le lt
  obtain rfl : next' = next :=
    Int.le_antisymm (h.symm.next_le stretch' stretch rfl le lt).2 first
  exact ⟨q', next', rfl, upTo, stretch, stretch', stretch.exists_next, stretch'.exists_next⟩

/-- Up to points at the same time the previous segments are the same. -/
theorem exists_previous {k k' : Nat} {t : Int} (meet : p.Meet p' k k' t) (lt : start < t)
    (le : t ≤ stop) : ∃ i i' q, k = i + 1 ∧ k' = i' + 1 ∧ start ≤ q.time ∧ q.time < t ∧
      p.Stretch i q t ∧ p'.Stretch i' q t ∧ p.Meet p' i i' q.time := by
  have single {p₀ : Profile} {j : Nat} (ascending : p₀.points.toList.Pairwise
      fun q r => q.time < r.time) (first : ∃ q ∈ p₀.points.toList, q.time = start)
      (here : ∃ q, p₀.points.toList[j]? = some q ∧ q.time = t) :
      ∃ i q, j = i + 1 ∧ p₀.Stretch i q t := by
    obtain ⟨q, there, rfl⟩ := here
    obtain ⟨r, mem, rfl⟩ := first
    obtain ⟨n, inside, rfl⟩ := List.getElem_of_mem mem
    have before := lt_of_time_lt ascending (List.getElem?_eq_getElem inside) there lt
    obtain ⟨i, rfl⟩ : ∃ i, j = i + 1 := ⟨j - 1, by omega⟩
    have bound := (List.getElem?_eq_some_iff.1 there).1
    have within : i < p₀.segments := by
      rw [segments, size_eq_length]
      omega
    obtain ⟨q', next, stretch⟩ := exists_stretch ascending within
    obtain ⟨r, there', rfl⟩ := stretch.exists_next
    rw [there] at there'
    cases there'
    exact ⟨i, q', rfl, stretch⟩
  obtain ⟨i, q, rfl, stretch⟩ := single h.ascending h.first meet.here
  obtain ⟨i', q', rfl, stretch'⟩ := single h.ascending' h.symm.first meet.here'
  obtain ⟨after, first⟩ := h.le_previous stretch stretch' lt le
  have time : q'.time = q.time :=
    Int.le_antisymm (h.symm.le_previous stretch' stretch lt le).2 first
  have order := stretch.lt
  obtain rfl : q' = q := eq_of_time_eq h.ascending' stretch'.mem
    ((h.mem_iff q after (by omega)).1 stretch.mem) time
  exact ⟨i, i', q', rfl, rfl, after, order, stretch, stretch', ⟨_, stretch.getElem?, rfl⟩,
    ⟨_, stretch'.getElem?, rfl⟩⟩

/-- The walks upwards start at the same time. -/
theorem meet_first : p.Meet p' (p.segmentContaining start) (p'.segmentContaining start) start := by
  have single {p₀ p₁ : Profile} (h : p₀.Agree p₁ start stop) :
      ∃ q, p₀.points.toList[p₀.segmentContaining start]? = some q ∧ q.time = start := by
    obtain ⟨first, mem, eq⟩ := h.first
    obtain ⟨last, mem', eq'⟩ := h.last
    have lt := h.lt
    obtain ⟨-, q, next, stretch, le, after⟩ := segmentContaining_spec h.ascending
      ⟨first, mem, by omega⟩ ⟨last, mem', show start < last.time by omega⟩
    have := stretch.gap first mem
    exact ⟨q, stretch.getElem?, by omega⟩
  exact ⟨single h, single h.symm⟩

/-- The walks downwards start at the same time. -/
theorem meet_last : p.Meet p' (p.segmentContaining (stop - 1) + 1)
    (p'.segmentContaining (stop - 1) + 1) stop := by
  have single {p₀ p₁ : Profile} (h : p₀.Agree p₁ start stop) :
      ∃ q, p₀.points.toList[p₀.segmentContaining (stop - 1) + 1]? = some q ∧ q.time = stop := by
    obtain ⟨first, mem, eq⟩ := h.first
    obtain ⟨last, mem', eq'⟩ := h.last
    have lt := h.lt
    obtain ⟨-, q, next, stretch, le, after⟩ := segmentContaining_spec h.ascending
      ⟨first, mem, by omega⟩ ⟨last, mem', show stop - 1 < last.time by omega⟩
    have := stretch.gap last mem'
    obtain ⟨r, there, same⟩ := stretch.exists_next
    exact ⟨r, there, by omega⟩
  exact ⟨single h, single h.symm⟩

/-- What holds at the end of the window, and of a segment if it holds of the next one, holds at the
start of the window. The walks have as many segments to go as there are. -/
theorem walk {P : Nat → Nat → Nat → Nat → Prop}
    (last : ∀ left left' k k', p.Meet p' k k' stop → k + left = p.segments →
      k' + left' = p'.segments → P left left' k k')
    (step : ∀ left left' k k' q next, start ≤ q.time → q.time < stop → p.Stretch k q next →
      p'.Stretch k' q next → P left left' (k + 1) (k' + 1) → P (left + 1) (left' + 1) k k') :
    P (p.segments - p.segmentContaining start) (p'.segments - p'.segmentContaining start)
      (p.segmentContaining start) (p'.segmentContaining start) := by
  have every (left left' k k' : Nat) (x : Int) (meet : p.Meet p' k k' x) (le : start ≤ x)
      (upTo : x ≤ stop) (within : k + left = p.segments) (within' : k' + left' = p'.segments) :
      P left left' k k' := by
    induction left generalizing left' k k' x with
    | zero =>
      rcases Int.lt_or_eq_of_le upTo with inside | rfl
      · obtain ⟨q, next, -, -, stretch, -, -⟩ := h.exists_next meet le inside
        have := stretch.lt_segments
        omega
      · exact last _ _ _ _ meet within within'
    | succ left ih =>
      rcases Int.lt_or_eq_of_le upTo with inside | rfl
      · obtain ⟨q, next, rfl, upTo', stretch, stretch', meet'⟩ := h.exists_next meet le inside
        have order := stretch.lt
        have more := stretch'.lt_segments
        obtain ⟨left', rfl⟩ : ∃ n, left' = n + 1 := ⟨left' - 1, by omega⟩
        exact step _ _ _ _ q next le inside stretch stretch'
          (ih _ _ _ next meet' (by omega) upTo' (by omega) (by omega))
      · exact last _ _ _ _ meet within within'
  obtain ⟨q, next, -, -, stretch, stretch', -⟩ := h.exists_next h.meet_first (Int.le_refl _) h.lt
  have inside := stretch.lt_segments
  have inside' := stretch'.lt_segments
  exact every _ _ _ _ start h.meet_first (Int.le_refl _) (Int.le_of_lt h.lt) (by omega) (by omega)

end Agree

/-! ## Consistency -/

/-- Where all activities that are left lie within the span, the profile stays consistent. -/
theorem isConsistent_of_perm (perm : bs.Perm (bs' ++ gone))
    (settled : ∀ b ∈ bs, b.toBounds.Settled) (misses : ∀ b ∈ gone, s.Misses b.toBounds)
    (contains : ∀ b ∈ bs', s.Contains b.toBounds) (made : build bs = .ok p)
    (made' : build bs' = .ok p') {low high : Int} (consistent : p.isConsistent low high = true) :
    p'.isConsistent low high = true := by
  have member (b : ActivityBounds) (mem : b ∈ bs') : b ∈ bs :=
    perm.mem_iff.2 (List.mem_append_left _ mem)
  have settled' (b : ActivityBounds) (mem : b ∈ bs') : b.toBounds.Settled := settled b (member b mem)
  refine List.all_eq_true.2 fun q mem => ?_
  obtain ⟨⟨b, inside, changes⟩, load, overlapping⟩ := (mem_points_iff settled' made').1 mem
  have between := ActivityBounds.ChangesAt.between (settled' b inside) changes
  have within := contains b inside
  have le := Int.le_trans within.1 between.1
  rcases Int.lt_or_le q.time s.stop with lt | beyond
  · obtain ⟨sameLoad, sameOverlap⟩ := loadAt_of_perm perm settled misses le lt
    refine List.all_eq_true.1 consistent q ((mem_points_iff settled made).2
      ⟨⟨b, member b inside, changes⟩, ?_, ?_⟩)
    · rw [load, sameLoad]
    · rw [overlapping, sameOverlap]
  · -- Nothing executes at the end of the span any more.
    have idle : overlappingAt bs' q.time = 0 := by
      refine List.sum_eq_zero fun n mem' => ?_
      obtain ⟨c, there, rfl⟩ := List.mem_map.1 mem'
      have := (contains c there).2
      exact (ActivityBounds.contributionAt_eq_zero (settled' c there) (.inr (by omega))).2
    simp [overlapping, idle]

end Profile

end Scheduling
