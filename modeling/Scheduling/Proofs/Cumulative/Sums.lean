import Scheduling.Proofs.Cumulative.Level

/-!
# The profile as a pointwise sum

Where several contributions change at the same time, the changes are added one after the other, in
no particular order. The sums in between stay within the sums of the heights of one sign all the
same: the two changes of an activity cancel each other, and the one that takes a contribution away
comes after the one that adds it. So if those sums fit a word, there is a profile, and at every time
it is the sum of the contributions.

Results:
* `ActivityBounds.SumsHold`, `Activity.sumsHold_of_length_le`: the sums of the heights of up to
  `2 ^ 32` activities fit a word.
* `Delta.sum_le_peak`: how far the sum gets, whatever the order of the changes at one time.
* `Profile.exists_build_of_sumsHold`: activities whose sums of heights fit a word have a profile.
* `Profile.overflows_of_build`: a profile that cannot be built exceeds a word.
* `Profile.Represents.isConsistent_iff`: consistency, from the contributions alone.
* `Profile.exists_pointwise_sum`: the profile of a list of activities is their pointwise sum.
-/

namespace Scheduling

/-! ## Sums of heights -/

namespace ActivityBounds

instance (b : ActivityBounds) : Decidable b.Ordered :=
  decidable_of_iff (b.startMin ≤ b.startMax ∧ b.endMin ≤ b.endMax)
    ⟨fun h => ⟨h.1, h.2⟩, fun h => ⟨h.1, h.2⟩⟩

/-- Every sum of heights of some of the activities fits a word. -/
structure SumsHold (bs : List ActivityBounds) : Prop where
  min : Width.w64.SumsHold (bs.map heightMin)
  max : Width.w64.SumsHold (bs.map heightMax)

instance (bs : List ActivityBounds) : Decidable (SumsHold bs) :=
  decidable_of_iff (Width.w64.SumsHold (bs.map heightMin) ∧ Width.w64.SumsHold (bs.map heightMax))
    ⟨fun h => ⟨h.1, h.2⟩, fun h => ⟨h.1, h.2⟩⟩

/-- Heights that are words of their own, other than the least one, can be negated. -/
theorem SumsHold.abs_height_le {bs : List ActivityBounds} (sums : SumsHold bs)
    (heights : ∀ b ∈ bs, b.heightMin ≠ Width.w64.least ∧ b.heightMax ≠ Width.w64.least) :
    ∀ b ∈ bs, |b.heightMin| ≤ Width.w64.greatest ∧ |b.heightMax| ≤ Width.w64.greatest := by
  intro b mem
  have least := sums.min.holds_of_mem (List.mem_map_of_mem mem)
  have most := sums.max.holds_of_mem (List.mem_map_of_mem mem)
  obtain ⟨least_ne, most_ne⟩ := heights b mem
  simp only [Width.Holds, Width.least, Width.greatest, abs_le] at *
  omega

theorem HeightsHold.abs_height_le {b : ActivityBounds} (h : b.HeightsHold) :
    |b.heightMin| ≤ Width.w64.greatest ∧ |b.heightMax| ≤ Width.w64.greatest := by
  obtain ⟨least, most⟩ := h
  simp only [Width.Holds, Width.least, Width.greatest, abs_le] at *
  omega

/-- The sums of up to `2 ^ 32` heights fit a word. -/
theorem sumsHold_of_length_le {bs : List ActivityBounds} (heights : ∀ b ∈ bs, b.HeightsHold)
    (few : bs.length ≤ 2 ^ 32) : SumsHold bs := by
  constructor <;> refine Width.sumsHold_of_length_le (fun v mem => ?_) (by simpa using few) <;>
    obtain ⟨b, listed, rfl⟩ := List.mem_map.1 mem
  · exact (heights b listed).min
  · exact (heights b listed).max

end ActivityBounds

/-- Whichever of the activities are taken, every sum of heights of some of them fits a word, with the
bounds that they have in the domains. -/
def Activity.SumsHold (d : Domains) (xs : List Activity) : Prop :=
  ∀ cs : List Captured, (cs.map Captured.activity).Subperm xs →
    (∀ c ∈ cs, c.activity.bounds d = .ok c.bounds) →
      ActivityBounds.SumsHold (cs.map Captured.bounds)

/-- So it is for up to `2 ^ 32` activities. -/
theorem Activity.sumsHold_of_length_le {d : Domains} {xs : List Activity}
    (wellFormed : d.WellFormed) (few : xs.length ≤ 2 ^ 32) : Activity.SumsHold d xs := by
  intro cs subperm known
  refine ActivityBounds.sumsHold_of_length_le (fun b mem => ?_) ?_
  · obtain ⟨c, listed, rfl⟩ := List.mem_map.1 mem
    exact heightsHold_of_bounds wellFormed (known c listed)
  · have := subperm.length_le
    simp only [List.length_map] at *
    omega

namespace ActivityBounds

/-- The sum of a quantity over the activities for which it is positive. -/
def positiveSum (f : ActivityBounds → Int) (bs : List ActivityBounds) : Int :=
  (bs.map fun b => max 0 (f b)).sum

/-- If every sum of some values fits a word, so do the sum of the positive and that of the negative
ones. -/
theorem positiveSum_le {f : ActivityBounds → Int} {bs : List ActivityBounds}
    (sums : Width.w64.SumsHold (bs.map f)) : positiveSum f bs ≤ Width.w64.greatest ∧
      positiveSum (fun b => -f b) bs ≤ -Width.w64.least := by
  have most := (sums.holds_sum_map (g := fun b => max 0 (f b)) fun b _ => by omega).2
  have least := (sums.holds_sum_map (g := fun b => -max 0 (-f b)) fun b _ => by omega).1
  rw [sum_map_neg] at least
  exact ⟨most, by simp only [positiveSum]; omega⟩

end ActivityBounds

/-! ## Changes in any order -/

namespace Delta

/-- The greatest sum that the changes up to a time can reach while those at the time itself are
added one after the other. -/
def peak (f : Delta → Int) (t : Int) (ds : List Delta) : Int :=
  (ds.map fun d => if d.time < t then f d else if d.time = t then max 0 (f d) else 0).sum

variable {f : Delta → Int} {t : Int}

@[simp] theorem peak_nil : peak f t [] = 0 := rfl

@[simp] theorem peak_cons (d : Delta) (ds : List Delta) : peak f t (d :: ds) =
    (if d.time < t then f d else if d.time = t then max 0 (f d) else 0) + peak f t ds := rfl

theorem peak_append (ds es : List Delta) : peak f t (ds ++ es) = peak f t ds + peak f t es := by
  simp [peak]

theorem peak_perm {ds es : List Delta} (h : ds.Perm es) : peak f t ds = peak f t es :=
  List.Perm.sum_eq (h.map _)

/-- The changes before a place in the order of times add up to no more than the peak. -/
theorem sum_le_peak {before after : List Delta} (le : ∀ d ∈ before, d.time ≤ t)
    (ge : ∀ d ∈ after, t ≤ d.time) : (before.map f).sum ≤ peak f t (before ++ after) := by
  have passed : (before.map f).sum ≤ peak f t before := List.sum_le_sum fun d mem => by
    have := le d mem
    split_ifs <;> omega
  have ahead : (after.map fun _ => (0 : Int)).sum ≤ peak f t after := List.sum_le_sum fun d mem => by
    have := ge d mem
    split_ifs <;> omega
  rw [peak_append]
  simp at ahead
  omega

/-- In ascending order of times the changes before any place add up to no more than some peak. -/
theorem exists_sum_le_peak {before after : List Delta}
    (sorted : (before ++ after).Pairwise fun d e => d.time ≤ e.time) :
    (before.map f).sum ≤ 0 ∨ ∃ t, (before.map f).sum ≤ peak f t (before ++ after) := by
  obtain ⟨first, -, across⟩ := List.pairwise_append.1 sorted
  rcases List.eq_nil_or_concat before with rfl | ⟨passed, last, rfl⟩
  · exact .inl (Int.le_refl _)
  · rw [List.concat_eq_append] at *
    refine .inr ⟨last.time, sum_le_peak (fun d mem => ?_) fun d mem => across last (by simp) d mem⟩
    rcases List.mem_append.1 mem with mem | mem
    · exact (List.pairwise_append.1 first).2.2 d mem last List.mem_cons_self
    · rw [List.mem_singleton.1 mem]

end Delta

namespace ActivityBounds

/-- A change that is undone later adds no more than its positive part. -/
theorem peak_pair_le {s e x t : Int} (lt : s < e) :
    (if s < t then x else if s = t then max 0 x else 0) +
      (if e < t then -x else if e = t then max 0 (-x) else 0) ≤ max 0 x := by
  split_ifs <;> omega

/-- The changes of an activity reach no more than the positive part of its height. -/
theorem peak_deltas_le {b : ActivityBounds} {ds : List Delta} (h : b.deltas = .ok ds) (t : Int) :
    (Delta.peak (·.load.low) t ds ≤ max 0 b.heightMin ∧
      Delta.peak (-·.load.low) t ds ≤ max 0 (-b.heightMin)) ∧
    Delta.peak (·.load.high) t ds ≤ max 0 b.heightMax ∧
      Delta.peak (-·.load.high) t ds ≤ max 0 (-b.heightMax) := by
  have low : b.possible.low = min 0 b.heightMin := rfl
  have high : b.possible.high = max 0 b.heightMax := rfl
  rcases deltas_eq_ok h with ⟨-, rfl⟩ | ⟨room, -, rfl⟩ | ⟨room, some, rfl⟩
  · simp only [Delta.peak_nil]
    omega
  · have pair (x : Int) := peak_pair_le (x := x) (t := t) room
    simp only [Delta.peak_cons, Delta.peak_nil, Int.add_zero, low, high]
    exact ⟨⟨(pair _).trans (by omega), (pair _).trans (by omega)⟩, (pair _).trans (by omega),
      (pair _).trans (by omega)⟩
  · have pair (x : Int) := peak_pair_le (x := x) (t := t) room
    have inner (x : Int) := peak_pair_le (x := x) (t := t) (hasMandatoryPart_eq_true_iff.1 some).2
    have both {u v x y z : Int} (outer : u ≤ x) (inner : v ≤ y) (le : x + y ≤ z) : u + v ≤ z := by
      omega
    simp only [Delta.peak_cons, Delta.peak_nil, Int.add_zero, low, high, ← Int.add_assoc]
    simp only [Int.add_assoc (_ + _)]
    exact ⟨⟨both (pair _) (inner _) (by omega), both (pair _) (inner _) (by omega)⟩,
      both (pair _) (inner _) (by omega), both (pair _) (inner _) (by omega)⟩

/-- An activity has changes if its heights and their negations fit a word. -/
theorem exists_deltas {b : ActivityBounds}
    (heights : |b.heightMin| ≤ Width.w64.greatest ∧ |b.heightMax| ≤ Width.w64.greatest) :
    ∃ ds, b.deltas = .ok ds := by
  obtain ⟨l1, l2⟩ := abs_le.1 heights.1
  obtain ⟨u1, u2⟩ := abs_le.1 heights.2
  simp only [Width.greatest] at l1 l2 u1 u2
  have word (v : Int) (le : -9223372036854775807 ≤ v) (ge : v ≤ 9223372036854775807) :
      Width.w64.Holds v := ⟨by simp only [Width.least]; omega, ge⟩
  have low : b.possible.low = min 0 b.heightMin := rfl
  have high : b.possible.high = max 0 b.heightMax := rfl
  have negate : b.possible.negate = .ok ⟨-b.possible.low, -b.possible.high⟩ :=
    Load.negate_eq_ok_iff.2 ⟨word _ (by omega) (by omega), word _ (by omega) (by omega), rfl⟩
  have without : b.mandatory.without b.possible =
      .ok ⟨b.heightMin - b.possible.low, b.heightMax - b.possible.high⟩ := by
    refine Load.without_eq_ok_iff.2 ⟨word _ ?_ ?_, word _ ?_ ?_, rfl⟩ <;>
      simp only [mandatory] <;> omega
  have back : (⟨b.heightMin - b.possible.low, b.heightMax - b.possible.high⟩ : Load).negate =
      .ok ⟨-(b.heightMin - b.possible.low), -(b.heightMax - b.possible.high)⟩ := by
    refine Load.negate_eq_ok_iff.2 ⟨word _ ?_ ?_, word _ ?_ ?_, rfl⟩ <;> simp only <;> omega
  unfold deltas
  split
  · exact ⟨[], rfl⟩
  · simp only [negate, bind, Except.bind]
    split
    · exact ⟨_, rfl⟩
    · simp only [without, back]
      exact ⟨_, rfl⟩

end ActivityBounds

namespace Profile

open ActivityBounds

variable {bs : List ActivityBounds}

/-- The changes of all activities reach no more than the positive heights together. -/
theorem peak_flatten_le {dss : List (List Delta)} (h : bs.mapM ActivityBounds.deltas = .ok dss)
    (t : Int) :
    (Delta.peak (·.load.low) t dss.flatten ≤ positiveSum heightMin bs ∧
      Delta.peak (-·.load.low) t dss.flatten ≤ positiveSum (fun b => -b.heightMin) bs) ∧
    Delta.peak (·.load.high) t dss.flatten ≤ positiveSum heightMax bs ∧
      Delta.peak (-·.load.high) t dss.flatten ≤ positiveSum (fun b => -b.heightMax) bs := by
  induction bs generalizing dss with
  | nil =>
    cases h
    simp [positiveSum]
  | cons b bs ih =>
    rw [List.mapM_cons] at h
    obtain ⟨ds, first, h⟩ := bind_eq_ok_iff.1 h
    obtain ⟨rest, later, h⟩ := bind_eq_ok_iff.1 h
    cases h
    obtain ⟨⟨l1, l2⟩, h1, h2⟩ := peak_deltas_le first t
    obtain ⟨⟨ls1, ls2⟩, hs1, hs2⟩ := ih later
    simp only [List.flatten_cons, Delta.peak_append, positiveSum, List.map_cons, List.sum_cons] at *
    omega

theorem exists_mapM_of_forall {ε α β : Type} {f : α → Except ε β} {l : List α}
    (h : ∀ a ∈ l, ∃ b, f a = .ok b) : ∃ l', l.mapM f = .ok l' := by
  induction l with
  | nil => exact ⟨[], rfl⟩
  | cons a l ih =>
    obtain ⟨b, first⟩ := h a List.mem_cons_self
    obtain ⟨l', rest⟩ := ih fun a mem => h a (List.mem_cons_of_mem _ mem)
    exact ⟨b :: l', by simp [List.mapM_cons, first, rest, bind, Except.bind, pure, Except.pure]⟩

/-- Changes can be summed up if the sums before every place fit a word. -/
theorem exists_accumulate_of_prefixes {load : Load} {overlap : Int} {ds : List Delta}
    (fit : ∀ before after, before ++ after = ds →
      Width.w64.Holds (load.low + (before.map fun d => d.load.low).sum) ∧
        Width.w64.Holds (load.high + (before.map fun d => d.load.high).sum)) :
    ∃ points, accumulate load overlap ds = .ok points := by
  induction ds generalizing load overlap with
  | nil => exact ⟨[], rfl⟩
  | cons d rest ih =>
    have here := fit [d] rest rfl
    simp only [List.map_cons, List.map_nil, List.sum_cons, List.sum_nil, Int.add_zero] at here
    have plus : load.plus d.load = .ok ⟨load.low + d.load.low, load.high + d.load.high⟩ :=
      Load.plus_eq_ok_iff.2 ⟨here.1, here.2, rfl⟩
    obtain ⟨later, accumulated⟩ : ∃ points, accumulate
        ⟨load.low + d.load.low, load.high + d.load.high⟩ (overlap + d.overlap) rest = .ok points :=
      ih fun before after eq => by
        have := fit (d :: before) after (by rw [List.cons_append, eq])
        simpa only [List.map_cons, List.sum_cons, ← Int.add_assoc] using this
    simp only [accumulate, plus, accumulated, bind, Except.bind]
    split <;> exact ⟨_, rfl⟩

/-- Activities whose sums of heights fit a word have a profile, if also the negation of each height
fits one. -/
theorem exists_build_of_sumsHold (sums : SumsHold bs)
    (heights : ∀ b ∈ bs, |b.heightMin| ≤ Width.w64.greatest ∧ |b.heightMax| ≤ Width.w64.greatest) :
    ∃ p, build bs = .ok p := by
  obtain ⟨dss, made⟩ := exists_mapM_of_forall fun b mem => exists_deltas (heights b mem)
  have perm := List.mergeSort_perm dss.flatten fun d e => decide (d.time ≤ e.time)
  have sorted := sorted_of_mergeSort dss.flatten
  generalize ordered : (dss.flatten.mergeSort fun d e => decide (d.time ≤ e.time)) = ds at *
  obtain ⟨lowest, lowest'⟩ := positiveSum_le sums.min
  obtain ⟨highest, highest'⟩ := positiveSum_le sums.max
  have bounded {f : Delta → Int} {limit : Int} (nonneg : 0 ≤ limit)
      (peak : ∀ t, Delta.peak f t dss.flatten ≤ limit) {before after : List Delta}
      (eq : before ++ after = ds) : (before.map f).sum ≤ limit := by
    rcases Delta.exists_sum_le_peak (f := f) (eq ▸ sorted) with le | ⟨t, le⟩
    · omega
    · rw [eq, Delta.peak_perm perm] at le
      exact le.trans (peak t)
  obtain ⟨points, accumulated⟩ : ∃ points, accumulate .zero 0 ds = .ok points := by
    refine exists_accumulate_of_prefixes fun before after eq => ?_
    have word {f : Delta → Int} (rise : (before.map f).sum ≤ Width.w64.greatest)
        (fall : (before.map fun d => -f d).sum ≤ -Width.w64.least) :
        Width.w64.Holds (0 + (before.map f).sum) := by
      rw [sum_map_neg] at fall
      simp only [Width.Holds] at *
      omega
    have most : 0 ≤ Width.w64.greatest := by decide
    have least : 0 ≤ -Width.w64.least := by decide
    exact ⟨word (bounded most (fun t => (peak_flatten_le made t).1.1.trans lowest) eq)
        (bounded least (fun t => (peak_flatten_le made t).1.2.trans lowest') eq),
      word (bounded most (fun t => (peak_flatten_le made t).2.1.trans highest) eq)
        (bounded least (fun t => (peak_flatten_le made t).2.2.trans highest') eq)⟩
  exact ⟨⟨.ofList points⟩, by
    simp [build, made, ordered, accumulated, bind, Except.bind, pure, Except.pure]⟩

theorem eq_of_accumulate_eq_error {load : Load} {overlap : Int} {ds : List Delta} {fault : Fault}
    (failed : accumulate load overlap ds = .error fault) : fault = .additionOverflow := by
  induction ds generalizing load overlap with
  | nil => cases failed
  | cons d rest ih =>
    rcases bind_eq_error_iff.1 failed with sum | ⟨_, -, failed⟩
    · exact Load.eq_of_plus_eq_error sum
    rcases bind_eq_error_iff.1 failed with later | ⟨_, -, failed⟩
    · exact ih later
    · split at failed <;> cases failed

/-- The only thing that can go wrong is that some sum of heights does not fit a word. -/
theorem overflows_of_build {fault : Fault} (heights : ∀ b ∈ bs, b.HeightsHold)
    (failed : build bs = .error fault) : ¬ SumsHold bs ∧ fault = .additionOverflow := by
  constructor
  · intro sums
    obtain ⟨p, made⟩ := exists_build_of_sumsHold sums fun b mem => (heights b mem).abs_height_le
    rw [made] at failed
    cases failed
  · obtain ⟨dss, made⟩ := exists_mapM_of_forall fun b mem =>
      exists_deltas (heights b mem).abs_height_le
    rcases bind_eq_error_iff.1 failed with impossible | ⟨_, -, failed⟩
    · rw [made] at impossible
      cases impossible
    rcases bind_eq_error_iff.1 failed with failed | ⟨_, -, impossible⟩
    · exact eq_of_accumulate_eq_error failed
    · cases impossible

end Profile

/-! ## Contributions at a time -/

namespace ActivityBounds

/-- An activity whose ranges are not empty contributes nothing outside of them. -/
theorem Ordered.contributionAt_eq_zero {b : ActivityBounds} (ordered : b.Ordered) {t : Int}
    (outside : t < b.startMin ∨ b.endMax ≤ t) :
    b.contributionAt t = .zero ∧ b.isMandatoryAt t = false := by
  obtain ⟨start, stop⟩ := ordered
  have uncertain : b.isMandatoryAt t = false := Bool.eq_false_iff.2 fun certain => by
    obtain ⟨-, begun, upTo⟩ := isMandatoryAt_eq_true_iff.1 certain
    omega
  refine ⟨?_, uncertain⟩
  unfold contributionAt
  rw [if_neg (by simp [uncertain]), if_neg]
  simp only [Bool.and_eq_true, decide_eq_true_eq]
  omega

end ActivityBounds

/-- Some level of the range lies within the capacity, provided that neither is empty. -/
def Load.Meets (l : Load) (minCapacity maxCapacity : Int) : Prop :=
  l.low ≤ maxCapacity ∧ minCapacity ≤ l.high

namespace Load

theorem violates_eq_false_iff {l : Load} {minCapacity maxCapacity : Int} :
    l.violates minCapacity maxCapacity = false ↔ l.Meets minCapacity maxCapacity := by
  simp [violates, Meets]

/-- Two ranges that are not empty meet exactly if they share a level. -/
theorem meets_iff_exists {l : Load} {minCapacity maxCapacity : Int} (range : l.low ≤ l.high)
    (capacity : minCapacity ≤ maxCapacity) : l.Meets minCapacity maxCapacity ↔
      ∃ level, l.low ≤ level ∧ level ≤ l.high ∧ minCapacity ≤ level ∧ level ≤ maxCapacity := by
  constructor
  · rintro ⟨low, high⟩
    exact ⟨max l.low minCapacity, by omega, by omega, by omega, by omega⟩
  · rintro ⟨level, h1, h2, h3, h4⟩
    exact ⟨by omega, by omega⟩

end Load

namespace Profile

open ActivityBounds

variable {bs : List ActivityBounds} {p : Profile}

/-- The time lies before the first point, or at the last one or after it. -/
def Outside (p : Profile) (t : Int) : Prop :=
  (∀ q ∈ p.points.toList, t < q.time) ∨ ∀ q ∈ p.points.toList, q.time ≤ t

theorem overlappingAt_eq_countP (bs : List ActivityBounds) (t : Int) :
    overlappingAt bs t = bs.countP (·.isMandatoryAt t) := by
  unfold overlappingAt
  induction bs with
  | nil => rfl
  | cons b bs ih =>
    rw [List.map_cons, List.sum_cons, ih, List.countP_cons, Nat.add_comm]
    rfl

/-- The sum of ranges that are not empty is not empty. -/
theorem loadAt_low_le_high (ranges : ∀ b ∈ bs, b.heightMin ≤ b.heightMax) (t : Int) :
    (loadAt bs t).low ≤ (loadAt bs t).high := by
  refine List.sum_le_sum fun b mem => ?_
  have range := ranges b mem
  unfold contributionAt
  split
  · exact range
  · split
    · simp only [possible]
      omega
    · exact Int.le_refl _

namespace Represents

variable (h : p.Represents bs)
include h

/-- Outside of the points no activity contributes anything. -/
theorem contributionAt_of_outside (ordered : ∀ b ∈ bs, b.Ordered) {t : Int} (outside : p.Outside t)
    {b : ActivityBounds} (mem : b ∈ bs) :
    b.contributionAt t = .zero ∧ b.isMandatoryAt t = false := by
  refine (ordered b mem).contributionAt_eq_zero ?_
  by_cases room : b.startMin < b.endMax
  · obtain ⟨⟨first, mem₁, eq₁⟩, ⟨last, mem₂, eq₂⟩, -⟩ := h.changes b mem room
    rcases outside with before | after
    · have := before first mem₁
      omega
    · have := after last mem₂
      omega
  · omega

/-- Between the points the segment of a time carries the sums of that time. -/
theorem load_segmentContaining {t : Int} (inside : ¬ p.Outside t) :
    ∃ q, p.point (p.segmentContaining t) = .ok q ∧ q ∈ p.points.toList ∧ q.load = loadAt bs t ∧
      q.overlapping = overlappingAt bs t := by
  obtain ⟨first, last⟩ := not_or.1 inside
  push Not at first last
  obtain ⟨-, q, stop, stretch, le, lt⟩ := segmentContaining_spec h.ascending first last
  obtain ⟨load, overlapping⟩ := h.load q stretch.mem t le fun r mem later => by
    have := stretch.gap r mem
    omega
  exact ⟨q, stretch.point, stretch.mem, load, overlapping⟩

/-- A profile is consistent exactly if the sum of the contributions meets the capacity at every time
at which some activity certainly executes. -/
theorem isConsistent_iff (ordered : ∀ b ∈ bs, b.Ordered) (minCapacity maxCapacity : Int) :
    p.isConsistent minCapacity maxCapacity = true ↔
      ∀ t, (∃ b ∈ bs, b.isMandatoryAt t = true) →
        (loadAt bs t).Meets minCapacity maxCapacity := by
  simp only [isConsistent, List.all_eq_true, Bool.or_eq_true, beq_iff_eq, Bool.not_eq_true',
    Load.violates_eq_false_iff]
  constructor
  · rintro all t ⟨b, mem, certain⟩
    have inside : ¬ p.Outside t := fun outside => by
      simp [(h.contributionAt_of_outside ordered outside mem).2] at certain
    obtain ⟨q, -, there, load, overlapping⟩ := h.load_segmentContaining inside
    rcases all q there with none | meets
    · have := overlappingAt_pos mem certain
      omega
    · rwa [← load]
  · intro meets q mem
    obtain ⟨load, overlapping⟩ := h.load_of_mem mem
    rcases Nat.eq_zero_or_pos q.overlapping with none | some
    · exact .inl none
    · rw [load]
      exact .inr (meets q.time (exists_of_overlappingAt_pos (by omega)))

end Represents

/-- Activities whose sums of heights fit a word, with heights that can be negated, have a profile,
and it is their pointwise sum. Its points are in strictly ascending order. Before the first and from
the last point on, no activity contributes anything. In between, the segment of a time carries the
sum of the contributions and the number of the activities that certainly execute at that time. So
the profile is consistent exactly if wherever some activity certainly executes the sum meets the
capacity. -/
theorem exists_pointwise_sum {bs : List ActivityBounds} (ordered : ∀ b ∈ bs, b.Ordered)
    (sums : SumsHold bs)
    (heights : ∀ b ∈ bs, b.heightMin ≠ Width.w64.least ∧ b.heightMax ≠ Width.w64.least) :
    ∃ p, build bs = .ok p ∧ (p.points.toList.Pairwise fun q r => q.time < r.time) ∧
      (∀ t, p.Outside t → ∀ b ∈ bs, b.contributionAt t = .zero ∧ b.isMandatoryAt t = false) ∧
      (∀ t, ¬ p.Outside t → ∃ q, p.point (p.segmentContaining t) = .ok q ∧
        q.load.low = (bs.map fun b => (b.contributionAt t).low).sum ∧
        q.load.high = (bs.map fun b => (b.contributionAt t).high).sum ∧
        q.overlapping = bs.countP (·.isMandatoryAt t)) ∧
      ∀ minCapacity maxCapacity,
        (p.isConsistent minCapacity maxCapacity = true ↔
          ∀ t, (∃ b ∈ bs, b.isMandatoryAt t = true) →
            (loadAt bs t).Meets minCapacity maxCapacity) ∧
        ((∀ b ∈ bs, b.heightMin ≤ b.heightMax) → minCapacity ≤ maxCapacity →
          (p.isConsistent minCapacity maxCapacity = true ↔
            ∀ t, (∃ b ∈ bs, b.isMandatoryAt t = true) →
              ∃ level, (loadAt bs t).low ≤ level ∧ level ≤ (loadAt bs t).high ∧
                minCapacity ≤ level ∧ level ≤ maxCapacity)) := by
  obtain ⟨p, made⟩ := exists_build_of_sumsHold sums (sums.abs_height_le heights)
  have represents := represents_of_build ordered made
  refine ⟨p, made, represents.ascending,
    fun t outside b mem => represents.contributionAt_of_outside ordered outside mem,
    fun t inside => ?_, fun minCapacity maxCapacity => ?_⟩
  · obtain ⟨q, point, -, load, overlapping⟩ := represents.load_segmentContaining inside
    rw [overlappingAt_eq_countP] at overlapping
    exact ⟨q, point, by rw [load]; rfl, by rw [load]; rfl, overlapping⟩
  · have consistent := represents.isConsistent_iff ordered minCapacity maxCapacity
    refine ⟨consistent, fun ranges capacity => consistent.trans ?_⟩
    exact forall_congr' fun t => imp_congr_right fun _ =>
      Load.meets_iff_exists (loadAt_low_le_high ranges t) capacity

/-- A lift and a load on it that certainly run together from 1 to 3, and an optional activity
without room that ends when they do. -/
def hoist : List ActivityBounds :=
  [⟨⟨0, 1, 3, 4, 3, 3⟩, 2, 2, true, false⟩, ⟨⟨1, 1, 3, 3, 2, 2⟩, -1, -1, true, true⟩,
    ⟨⟨3, 5, 2, 3, 0, 0⟩, -4, 4, false, false⟩]

theorem pointwise_sum_hoist :
    (∀ b ∈ hoist, b.Ordered) ∧ SumsHold hoist ∧
      (∀ b ∈ hoist, b.heightMin ≠ Width.w64.least ∧ b.heightMax ≠ Width.w64.least) ∧
      ∃ p, build hoist = .ok p ∧ p.isConsistent 2 3 = false ∧
        ∃ q, p.point (p.segmentContaining 1) = .ok q ∧ q.load = ⟨1, 1⟩ ∧ q.overlapping = 2 := by
  have ordered : ∀ b ∈ hoist, b.Ordered := by decide
  have sums : SumsHold hoist := by decide
  have heights : ∀ b ∈ hoist, b.heightMin ≠ Width.w64.least ∧ b.heightMax ≠ Width.w64.least := by
    decide
  refine ⟨ordered, sums, heights, ?_⟩
  obtain ⟨p, made, -, outside, inside, consistent⟩ := exists_pointwise_sum ordered sums heights
  have certain : ∃ b ∈ hoist, b.isMandatoryAt 1 = true := by decide
  refine ⟨p, made, Bool.eq_false_iff.2 fun stays => ?_, ?_⟩
  · have meets := (consistent 2 3).1.1 stays 1 certain
    exact absurd meets.2 (by decide)
  · obtain ⟨b, mem, mandatory⟩ := certain
    obtain ⟨q, point, low, high, overlapping⟩ := inside 1 fun before => by
      simp [(outside 1 before b mem).2] at mandatory
    have load : q.load = ⟨1, 1⟩ := by
      rw [show q.load = ⟨q.load.low, q.load.high⟩ from rfl, low, high]
      decide
    exact ⟨q, point, load, overlapping⟩

end Profile

end Scheduling
