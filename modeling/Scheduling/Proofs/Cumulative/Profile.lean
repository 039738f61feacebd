import Mathlib.Algebra.BigOperators.Group.List.Basic
import Mathlib.Tactic.Linarith
import Scheduling.Proofs.Computation
import Scheduling.Cumulative.Profile

/-!
# What a profile knows

A profile is built from changes in ascending order of their times. At every time the changes up to
that time add up to the contributions of the activities at that time, so that each point carries the
sum of the contributions for the whole stretch up to the next point.

Results:
* `ActivityBounds.sumTo_deltas`: the changes that an activity makes add up to its contribution.
* `Profile.represents_of_build`: a profile represents its activities.
* `Profile.Represents.segmentContaining_spec`: the segment that contains a time.
-/

namespace Scheduling

/-! ## Sums of changes -/

namespace Delta

/-- The sum of a quantity over the changes up to a time. -/
def sumTo (f : Delta → Int) (t : Int) (ds : List Delta) : Int :=
  (ds.map fun d => if d.time ≤ t then f d else 0).sum

variable {f : Delta → Int} {t u : Int}

@[simp] theorem sumTo_nil : sumTo f t [] = 0 := rfl

@[simp] theorem sumTo_cons (d : Delta) (ds : List Delta) :
    sumTo f t (d :: ds) = (if d.time ≤ t then f d else 0) + sumTo f t ds := rfl

theorem sumTo_append (ds es : List Delta) : sumTo f t (ds ++ es) = sumTo f t ds + sumTo f t es := by
  simp [sumTo]

theorem sumTo_perm {ds es : List Delta} (h : ds.Perm es) : sumTo f t ds = sumTo f t es :=
  List.Perm.sum_eq (h.map _)

/-- Without changes in between, nothing is added. -/
theorem sumTo_eq_of_forall {ds : List Delta} (le : t ≤ u)
    (none : ∀ d ∈ ds, t < d.time → u < d.time) : sumTo f u ds = sumTo f t ds := by
  induction ds with
  | nil => rfl
  | cons d ds ih =>
    have here := none d List.mem_cons_self
    rw [sumTo_cons, sumTo_cons, ih fun e mem => none e (List.mem_cons_of_mem _ mem)]
    congr 1
    by_cases early : d.time ≤ t
    · rw [if_pos early, if_pos (by omega)]
    · rw [if_neg early, if_neg (by have := here (by omega); omega)]

theorem sumTo_eq_zero {ds : List Delta} (h : ∀ d ∈ ds, t < d.time) : sumTo f t ds = 0 := by
  induction ds with
  | nil => rfl
  | cons d ds ih =>
    have here := h d List.mem_cons_self
    rw [sumTo_cons, if_neg (by omega), ih fun e mem => h e (List.mem_cons_of_mem _ mem)]
    rfl

end Delta

theorem Load.plus_eq_ok_iff {l m r : Load} : l.plus m = .ok r ↔
    Width.w64.Holds (l.low + m.low) ∧ Width.w64.Holds (l.high + m.high) ∧
      r = ⟨l.low + m.low, l.high + m.high⟩ := by
  simp only [plus, bind_eq_ok_iff, Width.add_eq_ok_iff, pure, Except.pure, Except.ok.injEq]
  constructor
  · rintro ⟨_, ⟨low, rfl⟩, _, ⟨high, rfl⟩, rfl⟩
    exact ⟨low, high, rfl⟩
  · rintro ⟨low, high, rfl⟩
    exact ⟨_, ⟨low, rfl⟩, _, ⟨high, rfl⟩, rfl⟩

theorem Load.eq_of_plus_eq_error {l m : Load} {fault : Fault} (failed : l.plus m = .error fault) :
    fault = .additionOverflow := by
  rcases bind_eq_error_iff.1 failed with low | ⟨_, -, failed⟩
  · exact (Width.add_eq_error_iff.1 low).2
  rcases bind_eq_error_iff.1 failed with high | ⟨_, -, impossible⟩
  · exact (Width.add_eq_error_iff.1 high).2
  · cases impossible

theorem Load.without_eq_ok_iff {l m r : Load} : l.without m = .ok r ↔
    Width.w64.Holds (l.low - m.low) ∧ Width.w64.Holds (l.high - m.high) ∧
      r = ⟨l.low - m.low, l.high - m.high⟩ := by
  simp only [without, bind_eq_ok_iff, Width.sub_eq_ok_iff, pure, Except.pure, Except.ok.injEq]
  constructor
  · rintro ⟨_, ⟨low, rfl⟩, _, ⟨high, rfl⟩, rfl⟩
    exact ⟨low, high, rfl⟩
  · rintro ⟨low, high, rfl⟩
    exact ⟨_, ⟨low, rfl⟩, _, ⟨high, rfl⟩, rfl⟩

theorem Load.negate_eq_ok_iff {l r : Load} : l.negate = .ok r ↔
    Width.w64.Holds (-l.low) ∧ Width.w64.Holds (-l.high) ∧ r = ⟨-l.low, -l.high⟩ := by
  simp only [negate, bind_eq_ok_iff, Width.neg_eq_ok_iff, pure, Except.pure, Except.ok.injEq]
  constructor
  · rintro ⟨_, ⟨low, rfl⟩, _, ⟨high, rfl⟩, rfl⟩
    exact ⟨low, high, rfl⟩
  · rintro ⟨low, high, rfl⟩
    exact ⟨_, ⟨low, rfl⟩, _, ⟨high, rfl⟩, rfl⟩

/-! ## The changes of an activity -/

namespace ActivityBounds

/-- The ranges of start and end are not empty. -/
structure Ordered (b : ActivityBounds) : Prop where
  start : b.startMin ≤ b.startMax
  stop : b.endMin ≤ b.endMax

/-- The number of activities that certainly execute, for a single one. -/
def overlapAt (b : ActivityBounds) (t : Int) : Nat := if b.isMandatoryAt t then 1 else 0

/-- The changes of an activity. -/
theorem deltas_eq_ok {b : ActivityBounds} {ds : List Delta} (h : b.deltas = .ok ds) :
    b.endMax ≤ b.startMin ∧ ds = [] ∨
      b.startMin < b.endMax ∧ b.hasMandatoryPart = false ∧
        ds = [⟨b.startMin, b.possible, 0⟩,
          ⟨b.endMax, ⟨-b.possible.low, -b.possible.high⟩, 0⟩] ∨
      b.startMin < b.endMax ∧ b.hasMandatoryPart = true ∧
        ds = [⟨b.startMin, b.possible, 0⟩, ⟨b.endMax, ⟨-b.possible.low, -b.possible.high⟩, 0⟩,
          ⟨b.startMax, ⟨b.heightMin - b.possible.low, b.heightMax - b.possible.high⟩, 1⟩,
          ⟨b.endMin, ⟨-(b.heightMin - b.possible.low), -(b.heightMax - b.possible.high)⟩, -1⟩] := by
  unfold deltas at h
  split at h
  · cases h
    exact .inl ⟨by assumption, rfl⟩
  · rename_i room
    obtain ⟨negated, negate, h⟩ := bind_eq_ok_iff.1 h
    obtain ⟨-, -, rfl⟩ := Load.negate_eq_ok_iff.1 negate
    refine .inr ?_
    cases mandatory : b.hasMandatoryPart with
    | false =>
      simp only [mandatory, Bool.not_false, if_true] at h
      cases h
      exact .inl ⟨by omega, rfl, rfl⟩
    | true =>
      simp only [mandatory, Bool.not_true, Bool.false_eq_true, if_false] at h
      obtain ⟨extra, without, h⟩ := bind_eq_ok_iff.1 h
      obtain ⟨-, -, rfl⟩ := Load.without_eq_ok_iff.1 without
      obtain ⟨back, negate, h⟩ := bind_eq_ok_iff.1 h
      obtain ⟨-, -, rfl⟩ := Load.negate_eq_ok_iff.1 negate
      cases h
      exact .inr ⟨by omega, rfl, rfl⟩

theorem hasMandatoryPart_eq_true_iff {b : ActivityBounds} :
    b.hasMandatoryPart = true ↔ b.isPresent = true ∧ b.startMax < b.endMin := by
  simp [hasMandatoryPart]

theorem isMandatoryAt_eq_true_iff {b : ActivityBounds} {t : Int} :
    b.isMandatoryAt t = true ↔ b.hasMandatoryPart = true ∧ b.startMax ≤ t ∧ t < b.endMin := by
  simp [isMandatoryAt, and_assoc]

/-- The changes that an activity makes up to a time add up to its contribution at that time. -/
theorem sumTo_deltas {b : ActivityBounds} {ds : List Delta} (ordered : b.Ordered)
    (h : b.deltas = .ok ds) (t : Int) :
    Delta.sumTo (·.load.low) t ds = (b.contributionAt t).low ∧
      Delta.sumTo (·.load.high) t ds = (b.contributionAt t).high ∧
      Delta.sumTo (·.overlap) t ds = b.overlapAt t := by
  obtain ⟨start, stop⟩ := ordered
  simp only [contributionAt, overlapAt, isMandatoryAt_eq_true_iff, Bool.and_eq_true,
    decide_eq_true_eq]
  rcases deltas_eq_ok h with ⟨noRoom, rfl⟩ | ⟨room, none, rfl⟩ | ⟨room, some, rfl⟩
  · have none : ¬ (b.hasMandatoryPart = true ∧ b.startMax ≤ t ∧ t < b.endMin) := by
      rintro ⟨-, h1, h2⟩
      omega
    rw [if_neg none, if_neg none, if_neg (by omega)]
    exact ⟨rfl, rfl, rfl⟩
  · simp only [none, Bool.false_eq_true, false_and, if_false, Delta.sumTo_cons, Delta.sumTo_nil]
    by_cases within : b.startMin ≤ t ∧ t < b.endMax
    · rw [if_pos within]
      simp [within.1, show ¬ b.endMax ≤ t by omega]
    · rw [if_neg within]
      by_cases before : t < b.startMin
      · simp [Load.zero, show ¬ b.startMin ≤ t by omega, show ¬ b.endMax ≤ t by omega]
      · simp [Load.zero, show b.startMin ≤ t by omega, show b.endMax ≤ t by omega]
  · have inner := (hasMandatoryPart_eq_true_iff.1 some).2
    simp only [some, true_and, Delta.sumTo_cons, Delta.sumTo_nil, mandatory, Load.zero]
    by_cases certain : b.startMax ≤ t ∧ t < b.endMin
    · rw [if_pos certain, if_pos certain]
      simp [certain.1, show b.startMin ≤ t by omega, show ¬ b.endMax ≤ t by omega,
        show ¬ b.endMin ≤ t by omega]
    · rw [if_neg certain, if_neg certain]
      by_cases within : b.startMin ≤ t ∧ t < b.endMax
      · rw [if_pos within]
        by_cases early : t < b.startMax
        · simp [within.1, show ¬ b.endMax ≤ t by omega, show ¬ b.startMax ≤ t by omega,
            show ¬ b.endMin ≤ t by omega]
        · simp [within.1, show ¬ b.endMax ≤ t by omega, show b.startMax ≤ t by omega,
            show b.endMin ≤ t by omega]
      · rw [if_neg within]
        by_cases before : t < b.startMin
        · simp [show ¬ b.startMin ≤ t by omega, show ¬ b.endMax ≤ t by omega,
            show ¬ b.startMax ≤ t by omega, show ¬ b.endMin ≤ t by omega]
        · simp [show b.startMin ≤ t by omega, show b.endMax ≤ t by omega,
            show b.startMax ≤ t by omega, show b.endMin ≤ t by omega]

/-- Every time at which the contribution changes is the time of a change. -/
theorem exists_delta {b : ActivityBounds} {ds : List Delta} (h : b.deltas = .ok ds)
    (room : b.startMin < b.endMax) :
    (∃ d ∈ ds, d.time = b.startMin) ∧ (∃ d ∈ ds, d.time = b.endMax) ∧
      (b.hasMandatoryPart = true →
        (∃ d ∈ ds, d.time = b.startMax) ∧ ∃ d ∈ ds, d.time = b.endMin) := by
  rcases deltas_eq_ok h with ⟨noRoom, -⟩ | ⟨-, none, rfl⟩ | ⟨-, -, rfl⟩
  · omega
  · simp [none]
  · simp

end ActivityBounds

theorem exists_of_mapM_eq_ok {ε α β : Type} {f : α → Except ε β} {l : List α} {l' : List β}
    (h : l.mapM f = .ok l') (a : α) (mem : a ∈ l) : ∃ b ∈ l', f a = .ok b := by
  induction l generalizing l' with
  | nil => cases mem
  | cons c l ih =>
    rw [List.mapM_cons] at h
    obtain ⟨b, first, h⟩ := bind_eq_ok_iff.1 h
    obtain ⟨rest, later, h⟩ := bind_eq_ok_iff.1 h
    cases h
    rcases List.mem_cons.1 mem with rfl | mem
    · exact ⟨b, List.mem_cons_self, first⟩
    · obtain ⟨b', mem', eq⟩ := ih later mem
      exact ⟨b', List.mem_cons_of_mem _ mem', eq⟩

namespace Profile

/-- The sum of the contributions at a time. -/
def loadAt (bs : List ActivityBounds) (t : Int) : Load :=
  ⟨(bs.map fun b => (b.contributionAt t).low).sum, (bs.map fun b => (b.contributionAt t).high).sum⟩

/-- The number of activities that certainly execute at a time. -/
def overlappingAt (bs : List ActivityBounds) (t : Int) : Nat := (bs.map (·.overlapAt t)).sum

theorem sumTo_flatten {bs : List ActivityBounds} {dss : List (List Delta)}
    (ordered : ∀ b ∈ bs, b.Ordered) (h : bs.mapM ActivityBounds.deltas = .ok dss) (t : Int) :
    Delta.sumTo (·.load.low) t dss.flatten = (loadAt bs t).low ∧
      Delta.sumTo (·.load.high) t dss.flatten = (loadAt bs t).high ∧
      Delta.sumTo (·.overlap) t dss.flatten = overlappingAt bs t := by
  induction bs generalizing dss with
  | nil =>
    cases h
    exact ⟨rfl, rfl, rfl⟩
  | cons b bs ih =>
    rw [List.mapM_cons] at h
    obtain ⟨ds, first, h⟩ := bind_eq_ok_iff.1 h
    obtain ⟨rest, later, h⟩ := bind_eq_ok_iff.1 h
    cases h
    obtain ⟨low, high, overlap⟩ :=
      ActivityBounds.sumTo_deltas (ordered b List.mem_cons_self) first t
    obtain ⟨lows, highs, overlaps⟩ := ih (fun c mem => ordered c (List.mem_cons_of_mem _ mem)) later
    simp only [List.flatten_cons, Delta.sumTo_append, low, high, overlap, lows, highs, overlaps,
      loadAt, overlappingAt, List.map_cons, List.sum_cons, Nat.cast_add, and_self]

/-! ## Points -/

/-- The points have the times of the changes, in strictly ascending order, and carry the sums up to
their times. -/
theorem accumulate_spec {load : Load} {overlap : Int} {ds : List Delta} {points : List TimePoint}
    (sorted : ds.Pairwise fun d e => d.time ≤ e.time)
    (h : accumulate load overlap ds = .ok points) :
    points.Pairwise (fun q r => q.time < r.time) ∧
      (∀ q ∈ points, ∃ d ∈ ds, d.time = q.time) ∧ (∀ d ∈ ds, ∃ q ∈ points, q.time = d.time) ∧
      ∀ q ∈ points, q.load.low = load.low + Delta.sumTo (·.load.low) q.time ds ∧
        q.load.high = load.high + Delta.sumTo (·.load.high) q.time ds ∧
        q.overlapping = (overlap + Delta.sumTo (·.overlap) q.time ds).toNat := by
  induction ds generalizing load overlap points with
  | nil =>
    cases h
    simp
  | cons d rest ih =>
    obtain ⟨next, plus, h⟩ := bind_eq_ok_iff.1 h
    obtain ⟨-, -, rfl⟩ := Load.plus_eq_ok_iff.1 plus
    obtain ⟨later, accumulated, h⟩ := bind_eq_ok_iff.1 h
    obtain ⟨first, sorted⟩ := List.pairwise_cons.1 sorted
    obtain ⟨ascending, times, changes, sums⟩ := ih sorted accumulated
    have after (q : TimePoint) (mem : q ∈ later) : d.time ≤ q.time := by
      obtain ⟨e, mem', eq⟩ := times q mem
      rw [← eq]
      exact first e mem'
    have added (q : TimePoint) (mem : q ∈ later) :
        q.load.low = load.low + Delta.sumTo (·.load.low) q.time (d :: rest) ∧
          q.load.high = load.high + Delta.sumTo (·.load.high) q.time (d :: rest) ∧
          q.overlapping = (overlap + Delta.sumTo (·.overlap) q.time (d :: rest)).toNat := by
      obtain ⟨low, high, overlapping⟩ := sums q mem
      have le := after q mem
      simp only [Delta.sumTo_cons, if_pos le]
      refine ⟨low.trans (Int.add_assoc ..), high.trans (Int.add_assoc ..), ?_⟩
      rw [overlapping]
      congr 1
      omega
    split at h
    · rename_i same
      cases h
      refine ⟨ascending, fun q mem => ?_, fun e mem => ?_, added⟩
      · obtain ⟨e, mem', eq⟩ := times q mem
        exact ⟨e, List.mem_cons_of_mem _ mem', eq⟩
      · rcases List.mem_cons.1 mem with rfl | mem
        · obtain ⟨e, head, eq⟩ := Option.map_eq_some_iff.1 same
          obtain ⟨q, mem', eq'⟩ := changes e (List.mem_of_mem_head? head)
          exact ⟨q, mem', eq'.trans eq⟩
        · exact changes e mem
    · rename_i differs
      cases h
      have strict (e : Delta) (mem : e ∈ rest) : d.time < e.time := by
        cases rest with
        | nil => cases mem
        | cons head rest =>
          have ne : head.time ≠ d.time := fun eq => differs (by simp [eq])
          have le := first head List.mem_cons_self
          rcases List.mem_cons.1 mem with rfl | mem
          · omega
          · have := (List.pairwise_cons.1 sorted).1 e mem
            omega
      refine ⟨List.pairwise_cons.2 ⟨fun q mem => ?_, ascending⟩, fun q mem => ?_, fun e mem => ?_,
        fun q mem => ?_⟩
      · obtain ⟨e, mem', eq⟩ := times q mem
        rw [← eq]
        exact strict e mem'
      · rcases List.mem_cons.1 mem with rfl | mem
        · exact ⟨d, List.mem_cons_self, rfl⟩
        · obtain ⟨e, mem', eq⟩ := times q mem
          exact ⟨e, List.mem_cons_of_mem _ mem', eq⟩
      · rcases List.mem_cons.1 mem with rfl | mem
        · exact ⟨_, List.mem_cons_self, rfl⟩
        · obtain ⟨q, mem', eq⟩ := changes e mem
          exact ⟨q, List.mem_cons_of_mem _ mem', eq⟩
      · rcases List.mem_cons.1 mem with rfl | mem
        · simp [Delta.sumTo_eq_zero strict]
        · exact added q mem

/-- The points are in ascending order, each carries the sum of the contributions for the times up to
the next point, and there is a point wherever a contribution changes. -/
structure Represents (p : Profile) (bs : List ActivityBounds) : Prop where
  ascending : p.points.toList.Pairwise fun q r => q.time < r.time
  load : ∀ q ∈ p.points.toList, ∀ t, q.time ≤ t →
    (∀ r ∈ p.points.toList, q.time < r.time → t < r.time) →
    q.load = loadAt bs t ∧ q.overlapping = overlappingAt bs t
  changes : ∀ b ∈ bs, b.startMin < b.endMax →
    (∃ q ∈ p.points.toList, q.time = b.startMin) ∧ (∃ q ∈ p.points.toList, q.time = b.endMax) ∧
      (b.hasMandatoryPart = true → (∃ q ∈ p.points.toList, q.time = b.startMax) ∧
        ∃ q ∈ p.points.toList, q.time = b.endMin)

/-- A point carries the sums of its own time. -/
theorem Represents.load_of_mem {p : Profile} {bs : List ActivityBounds} (h : p.Represents bs)
    {q : TimePoint} (mem : q ∈ p.points.toList) :
    q.load = loadAt bs q.time ∧ q.overlapping = overlappingAt bs q.time :=
  h.load q mem q.time (Int.le_refl _) fun _ _ later => later

theorem sorted_of_mergeSort (ds : List Delta) :
    (ds.mergeSort fun d e => decide (d.time ≤ e.time)).Pairwise fun d e => d.time ≤ e.time := by
  have : (ds.mergeSort fun d e => decide (d.time ≤ e.time)).Pairwise
      fun d e => decide (d.time ≤ e.time) = true :=
    List.pairwise_mergeSort (fun a b c => by simpa using fun h h' => Int.le_trans h h')
      (fun a b => by simpa using Int.le_total a.time b.time) ds
  simpa using this

/-- A profile represents the activities that it was built from. -/
theorem represents_of_build {bs : List ActivityBounds} {p : Profile}
    (ordered : ∀ b ∈ bs, b.Ordered) (h : build bs = .ok p) : p.Represents bs := by
  obtain ⟨dss, made, h⟩ := bind_eq_ok_iff.1 h
  obtain ⟨points', accumulated, h⟩ := bind_eq_ok_iff.1 h
  cases h
  have perm := List.mergeSort_perm dss.flatten fun d e => decide (d.time ≤ e.time)
  obtain ⟨ascending, times, changes, sums⟩ :=
    accumulate_spec (sorted_of_mergeSort dss.flatten) accumulated
  have points : (Table.ofList points').toList = points' := by simp [Table.ofList, Table.toList]
  refine ⟨by rw [points]; exact ascending, fun q mem t le next => ?_, fun b mem room => ?_⟩
  · rw [points] at mem next
    obtain ⟨low, high, overlapping⟩ := sums q mem
    obtain ⟨lows, highs, overlaps⟩ := sumTo_flatten ordered made t
    have same (f : Delta → Int) : Delta.sumTo f q.time (dss.flatten.mergeSort fun d e =>
        decide (d.time ≤ e.time)) = Delta.sumTo f t dss.flatten := by
      rw [← Delta.sumTo_perm perm]
      refine (Delta.sumTo_eq_of_forall le fun d mem' later => ?_).symm
      obtain ⟨r, mem', eq⟩ := changes d mem'
      rw [← eq] at later ⊢
      exact next r mem' later
    constructor
    · cases load : q.load
      rw [load, same, lows] at low
      rw [load, same, highs] at high
      simp only [Load.zero, Int.zero_add] at low high
      rw [low, high]
    · rw [overlapping, same, overlaps]
      simp
  · rw [points]
    obtain ⟨ds, mem', single⟩ := exists_of_mapM_eq_ok made b mem
    have point (time : Int) (h : ∃ d ∈ ds, d.time = time) : ∃ q ∈ points', q.time = time := by
      obtain ⟨d, mem'', rfl⟩ := h
      exact changes d (perm.mem_iff.2 (List.mem_flatten_of_mem mem' mem''))
    obtain ⟨start, stop, certain⟩ := ActivityBounds.exists_delta single room
    exact ⟨point _ start, point _ stop, fun mandatory =>
      ⟨point _ (certain mandatory).1, point _ (certain mandatory).2⟩⟩

/-! ## Stretches -/

/-- A segment with the point at which it starts and the time at which it ends. -/
structure Stretch (p : Profile) (segment : Nat) (q : TimePoint) (stop : Int) : Prop where
  point : p.point segment = .ok q
  span : p.span segment = .ok (q.time, stop)
  mem : q ∈ p.points.toList
  lt : q.time < stop
  gap : ∀ r ∈ p.points.toList, r.time ≤ q.time ∨ stop ≤ r.time

theorem get?_eq_getElem? (p : Profile) (k : Nat) : p.points.get? k = p.points.toList[k]? := by
  simp [Table.get?, Table.toList]

theorem size_eq_length (p : Profile) : p.points.size = p.points.toList.length := by
  simp [Table.size, Table.toList]

theorem Stretch.unique {p : Profile} {segment : Nat} {q q' : TimePoint} {stop stop' : Int}
    (h : p.Stretch segment q stop) (h' : p.Stretch segment q' stop') : q = q' ∧ stop = stop' := by
  have point := h.point.symm.trans h'.point
  have span := h.span.symm.trans h'.span
  cases point
  cases span
  exact ⟨rfl, rfl⟩

theorem Stretch.exists_next {p : Profile} {segment : Nat} {q : TimePoint} {stop : Int}
    (h : p.Stretch segment q stop) :
    ∃ r, p.points.toList[segment + 1]? = some r ∧ r.time = stop := by
  obtain ⟨_, -, span⟩ := bind_eq_ok_iff.1 h.span
  obtain ⟨r, there, span⟩ := bind_eq_ok_iff.1 span
  simp only [pure, Except.pure, Except.ok.injEq, Prod.mk.injEq] at span
  exact ⟨r, by rw [← get?_eq_getElem?]; exact Table.read_eq_ok_iff.1 there, span.2⟩

section Stretch

variable {p : Profile} (ascending : p.points.toList.Pairwise fun q r => q.time < r.time)
include ascending

theorem exists_stretch {segment : Nat} (lt : segment < p.segments) :
    ∃ q stop, p.Stretch segment q stop := by
  unfold segments at lt
  rw [size_eq_length] at lt
  have first : segment < p.points.toList.length := by omega
  have second : segment + 1 < p.points.toList.length := by omega
  have here : p.points.read segment = .ok p.points.toList[segment] :=
    Table.read_eq_ok_iff.2 (by rw [get?_eq_getElem?, List.getElem?_eq_getElem first])
  have there : p.points.read (segment + 1) = .ok p.points.toList[segment + 1] :=
    Table.read_eq_ok_iff.2 (by rw [get?_eq_getElem?, List.getElem?_eq_getElem second])
  have order := List.pairwise_iff_getElem.1 ascending
  refine ⟨p.points.toList[segment], p.points.toList[segment + 1].time, here, ?_,
    List.getElem_mem first, order _ _ first second (by omega), fun r mem => ?_⟩
  · simp [span, here, there, bind, Except.bind, pure, Except.pure]
  · obtain ⟨j, inside, rfl⟩ := List.getElem_of_mem mem
    rcases Nat.lt_trichotomy j segment with before | rfl | after
    · exact .inl (Int.le_of_lt (order _ _ inside first before))
    · exact .inl (Int.le_refl _)
    · right
      rcases Nat.lt_or_ge (segment + 1) j with later | same
      · exact Int.le_of_lt (order _ _ second inside later)
      · obtain rfl : j = segment + 1 := by omega
        exact Int.le_refl _

omit ascending in
/-- A segment starts where the one before it ends. -/
theorem Stretch.next {segment : Nat} {q r : TimePoint} {stop stop' : Int}
    (h : p.Stretch segment q stop) (h' : p.Stretch (segment + 1) r stop') : r.time = stop := by
  have span := h.span
  have point := h'.point
  simp only [Profile.span, Profile.point] at span point
  obtain ⟨_, -, span⟩ := bind_eq_ok_iff.1 span
  obtain ⟨_, there, span⟩ := bind_eq_ok_iff.1 span
  rw [point] at there
  cases there
  simp only [pure, Except.pure, Except.ok.injEq, Prod.mk.injEq] at span
  exact span.2

/-- The last segment ends at the last point. -/
theorem Stretch.last {segment : Nat} {q : TimePoint} {stop : Int} (h : p.Stretch segment q stop)
    (none : p.segments ≤ segment + 1) : ∀ r ∈ p.points.toList, r.time ≤ stop := by
  intro r mem
  obtain ⟨j, inside, rfl⟩ := List.getElem_of_mem mem
  obtain ⟨next, there, rfl⟩ := h.exists_next
  unfold segments at none
  rw [size_eq_length] at none
  have second := (List.getElem?_eq_some_iff.1 there).1
  have here := (List.getElem?_eq_some_iff.1 there).2
  rw [← here]
  rcases Nat.lt_or_ge j (segment + 1) with before | same
  · exact Int.le_of_lt (List.pairwise_iff_getElem.1 ascending _ _ inside second before)
  · obtain rfl : j = segment + 1 := by omega
    exact Int.le_refl _

end Stretch

/-- In ascending order the points up to a time come first. -/
theorem lt_length_takeWhile_iff {l : List TimePoint} {t : Int}
    (ascending : l.Pairwise fun q r => q.time < r.time) (j : Nat) (h : j < l.length) :
    j < (l.takeWhile fun q => decide (q.time ≤ t)).length ↔ l[j].time ≤ t := by
  induction l generalizing j with
  | nil => simp at h
  | cons q l ih =>
    obtain ⟨first, ascending⟩ := List.pairwise_cons.1 ascending
    by_cases early : q.time ≤ t
    · simp only [List.takeWhile_cons, early, decide_true, if_true, List.length_cons]
      cases j with
      | zero => simpa using early
      | succ j =>
        rw [List.getElem_cons_succ, ← ih ascending j (by simpa using h)]
        omega
    · simp only [List.takeWhile_cons, early, decide_false, Bool.false_eq_true, if_false,
        List.length_nil, Nat.not_lt_zero, false_iff]
      cases j with
      | zero => simpa using early
      | succ j =>
        have inside : j < l.length := by simpa using h
        have := first l[j] (List.getElem_mem inside)
        rw [List.getElem_cons_succ]
        omega

section Stretch

variable {p : Profile} (ascending : p.points.toList.Pairwise fun q r => q.time < r.time)
include ascending

/-- The segment that contains a time. -/
theorem segmentContaining_spec {t : Int} (first : ∃ q ∈ p.points.toList, q.time ≤ t)
    (last : ∃ q ∈ p.points.toList, t < q.time) :
    p.segmentContaining t < p.segments ∧
      ∃ q stop, p.Stretch (p.segmentContaining t) q stop ∧ q.time ≤ t ∧ t < stop := by
  have counts := lt_length_takeWhile_iff (t := t) ascending
  obtain ⟨q₁, mem₁, le₁⟩ := first
  obtain ⟨i, inside, rfl⟩ := List.getElem_of_mem mem₁
  obtain ⟨q₂, mem₂, lt₂⟩ := last
  obtain ⟨j, inside', rfl⟩ := List.getElem_of_mem mem₂
  have some := (counts i inside).2 le₁
  have rest : ¬ j < (p.points.toList.takeWhile fun q => decide (q.time ≤ t)).length :=
    fun early => by
      have := (counts j inside').1 early
      omega
  have lt : p.segmentContaining t < p.segments := by
    unfold segmentContaining segments
    rw [size_eq_length]
    omega
  obtain ⟨q, stop, stretch⟩ := exists_stretch ascending lt
  refine ⟨lt, q, stop, stretch, ?_, ?_⟩
  · have here := Table.read_eq_ok_iff.1 stretch.point
    rw [get?_eq_getElem?, List.getElem?_eq_some_iff] at here
    obtain ⟨within, rfl⟩ := here
    refine (counts _ within).1 ?_
    unfold segmentContaining
    omega
  · obtain ⟨r, there, rfl⟩ := stretch.exists_next
    obtain ⟨within, rfl⟩ := List.getElem?_eq_some_iff.1 there
    refine Int.lt_of_not_ge fun early => ?_
    have := (counts _ within).2 early
    unfold segmentContaining at this
    omega

end Stretch

end Profile

end Scheduling
