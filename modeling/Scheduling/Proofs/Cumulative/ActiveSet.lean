import Mathlib.Algebra.BigOperators.Group.List.Basic
import Mathlib.Data.List.Nodup
import Mathlib.Data.List.Forall2
import Scheduling.Proofs.Cumulative.Fixed
import Scheduling.Proofs.Cumulative.Span
import Scheduling.Proofs.Cumulative.TimeTable
import Scheduling.Proofs.Posting

/-!
# The active activities of a resource

Within the stored span the active activities make up the whole level, and an activity that has left
the active set executes outside of it, where the level was found to be right.

Results:
* `Resource.Cleared`: the level is within the capacity wherever an activity executes.
* `Resource.Fits`: how the active set, the stored span and the domains fit together.
* `Resource.Captures.level_eq`: within the span the level is that of the active activities.
* `Resource.Captures.cleared`: the activities that will leave the active set are cleared.
-/

namespace Scheduling

/-- The elements of the set are the numbers below `n` in some order. -/
theorem SparseSet.Valid.perm {n : Nat} {q : SparseSet} (h : q.Valid n) :
    q.elements.toList.Perm (List.range n) := by
  have nodup := h.nodup_take q.elements.toList.length
  have all (i : Nat) : i ∈ q.elements.toList ↔ q.Has q.elements.toList.length i := by
    rw [← mem_take_iff, List.take_length]
  rw [List.take_length] at nodup
  refine (List.perm_ext_iff_of_nodup nodup List.nodup_range).2 fun i => ?_
  have size : q.elements.toList.length = n := by
    rw [← h.size]
    simp [Table.toList, Table.size]
  rw [all, List.mem_range, size]
  exact ⟨h.lt_of_has, h.has_all⟩

namespace Assignment

theorem level_perm (a : Assignment) {xs ys : List Activity} (perm : xs.Perm ys) (time : Int) :
    a.level xs time = a.level ys time :=
  (perm.map _).sum_eq

/-- Activities that do not execute have no level. -/
theorem level_eq_zero {a : Assignment} {xs : List Activity} {time : Int}
    (idle : ∀ x ∈ xs, ¬ (a.interval x.interval).executesAt time = true) : a.level xs time = 0 := by
  refine List.sum_eq_zero fun value mem => ?_
  obtain ⟨x, listed, rfl⟩ := List.mem_map.1 mem
  rw [contribution_eq, if_neg (idle x listed)]

end Assignment

namespace Resource

/-- The activities with the given numbers. -/
def select (r : Resource) (keys : List Nat) : List Activity := keys.filterMap r.activities.get?

theorem select_cons (r : Resource) (k : Nat) (keys : List Nat) :
    r.select (k :: keys) = (r.activities.get? k).toList ++ r.select keys := by
  unfold select
  cases here : r.activities.get? k <;> simp [here]

theorem select_append (r : Resource) (keys keys' : List Nat) :
    r.select (keys ++ keys') = r.select keys ++ r.select keys' :=
  List.filterMap_append

theorem mem_select_iff {r : Resource} {keys : List Nat} {x : Activity} :
    x ∈ r.select keys ↔ ∃ k ∈ keys, r.activities.get? k = some x :=
  List.mem_filterMap

theorem select_perm {r : Resource} {keys keys' : List Nat} (perm : keys.Perm keys') :
    (r.select keys).Perm (r.select keys') :=
  perm.filterMap _

/-- All numbers select all activities. -/
theorem select_range (r : Resource) :
    r.select (List.range r.activities.size) = r.activities.toList := by
  have rows : (List.range r.activities.size).map r.activities.get? =
      r.activities.toList.map some := by
    refine List.ext_getElem (by simp [Table.size, Table.toList]) fun k inside _ => ?_
    simp only [List.length_map, List.length_range, Table.size] at inside
    simp [Table.get?, Table.toList, inside]
  calc r.select (List.range r.activities.size)
      = ((List.range r.activities.size).map r.activities.get?).filterMap id := by
        rw [List.filterMap_map]
        rfl
    _ = r.activities.toList := by
        rw [rows]
        simp

/-- The level is within the capacity wherever the activity executes, under every assignment within
the domains. -/
def Cleared (xs : List Activity) (c : Capacity) (d : Domains) (x : Activity) : Prop :=
  ∀ a, d.Admits a → ∀ time, (a.interval x.interval).executesAt time = true →
    c.minimum ≤ a.level xs time ∧ a.level xs time ≤ c.maximum

theorem Cleared.mono {xs : List Activity} {c : Capacity} {d d' : Domains} {x : Activity}
    (h : Cleared xs c d x) (narrows : d.Narrows d') : Cleared xs c d' x :=
  fun a admits => h a (narrows.admits admits)

/-- The activity lies within the span. -/
def Covered (d : Domains) (s : Span) (x : Activity) : Prop :=
  ∃ v, d.interval x.interval = .ok v ∧ s.Contains v.toBounds

theorem Covered.mono {d d' : Domains} {s : Span} {x : Activity} (h : Covered d s x)
    (narrows : d.Narrows d') : Covered d' s x := by
  obtain ⟨v, row, start, stop⟩ := h
  obtain ⟨v', row', narrower⟩ := narrows.interval _ v row
  exact ⟨v', row', Int.le_trans start narrower.tightens.startMin_le,
    Int.le_trans narrower.tightens.le_endMax stop⟩

/-- An activity within the span executes within it. -/
theorem Covered.within {d : Domains} {s : Span} {x : Activity} {a : Assignment} {time : Int}
    (h : Covered d s x) (admits : d.Admits a)
    (executes : (a.interval x.interval).executesAt time = true) : s.start ≤ time ∧ time < s.stop := by
  obtain ⟨v, row, start, stop⟩ := h
  have inside := admits.interval _ v row
  cases value : a.interval x.interval with
  | absent => simp [value, IntervalValue.executesAt] at executes
  | placed first length =>
    rw [value] at inside executes
    simp only [IntervalValue.executesAt, Bool.and_eq_true, decide_eq_true_eq] at executes
    have := inside.2.startMin_le
    have := inside.2.le_endMax
    omega

theorem isDone_eq_true_iff {d : Domains} {s : Span} {x : Activity} :
    isDone d s x = .ok true ↔ ∃ v fixed, d.interval x.interval = .ok v ∧
      x.isFixed d = .ok fixed ∧ (v.isAbsent = true ∨ fixed = true ∧ s.Misses v.toBounds) := by
  unfold isDone Span.Misses
  cases d.interval x.interval with
  | error fault => simp [bind, Except.bind]
  | ok v =>
    cases x.isFixed d with
    | error fault => simp [bind, Except.bind]
    | ok fixed => simp [bind, Except.bind, pure, Except.pure]

/-- An activity that is done stays done, also for a shorter span. -/
theorem isDone_mono {d d' : Domains} {s s' : Span} {x : Activity} (wellFormed : d.WellFormed)
    (wellFormed' : d'.WellFormed) (narrows : d.Narrows d') (le : s'.Within s)
    (done : isDone d s x = .ok true) : isDone d' s' x = .ok true := by
  obtain ⟨v, fixed, row, known, matters⟩ := isDone_eq_true_iff.1 done
  obtain ⟨v', row', narrower⟩ := narrows.interval _ v row
  have fixedTrue : fixed = true := by
    rcases matters with absent | ⟨eq, -⟩
    · have := Activity.isFixed_eq_true_iff.2 ⟨v, row, .inl absent⟩
      rw [known] at this
      simpa using this
    · exact eq
  subst fixedTrue
  refine isDone_eq_true_iff.2 ⟨v', true, row',
    Activity.isFixed_of_narrows wellFormed wellFormed' narrows known, ?_⟩
  rcases matters with absent | ⟨-, misses⟩
  · exact .inl (narrower.isAbsent absent)
  · right
    obtain ⟨t1, -, -, t4, -, -⟩ := narrower.tightens
    obtain ⟨w1, w2⟩ := le
    refine ⟨rfl, ?_⟩
    unfold Span.Misses at misses ⊢
    omega

/-- An activity that is done does not execute within the span. -/
theorem idle_of_isDone {d : Domains} {s : Span} {x : Activity} {a : Assignment}
    (done : isDone d s x = .ok true) (admits : d.Admits a) {time : Int} (le : s.start ≤ time)
    (lt : time < s.stop) : ¬ (a.interval x.interval).executesAt time = true := by
  obtain ⟨v, fixed, row, -, matters⟩ := isDone_eq_true_iff.1 done
  have inside := admits.interval _ v row
  intro executes
  cases value : a.interval x.interval with
  | absent => simp [value, IntervalValue.executesAt] at executes
  | placed start length =>
    rw [value] at inside executes
    simp only [IntervalValue.executesAt, Bool.and_eq_true, decide_eq_true_eq] at executes
    rcases matters with absent | ⟨-, misses⟩
    · simp only [Interval.isAbsent, beq_iff_eq] at absent
      exact inside.1 absent
    · have first := inside.2.startMin_le
      have last := inside.2.le_endMax
      unfold Span.Misses at misses
      omega

/-- How the active set, the stored span and the domains fit together: `m` activities are active; the
active ones lie within the span, and the others are done. -/
structure Fits (xs : List Activity) (c : Capacity) (r : Resource) (d : Domains)
    (values : Table Int) (m : Nat) (s : Span) : Prop where
  activities : r.activities.toList = xs
  capacity : r.capacity = c
  known : d.Knows xs
  valid : r.active.Valid r.activities.size
  size : values.get? r.active.size.index = some (m : Int)
  le : m ≤ r.activities.size
  start : values.get? r.spanStart.index = some s.start
  stop : values.get? r.spanStop.index = some s.stop
  shape : ∀ k x, r.activities.get? k = some x → r.active.Has m k ∧ Covered d s x ∨
    isDone d s x = .ok true ∧ Cleared xs c d x

namespace Fits

variable {xs : List Activity} {c : Capacity} {r : Resource} {d d' : Domains}
  {values values' : Table Int} {m : Nat} {s : Span}

/-- Narrower domains fit as well, as long as the cells are left alone. -/
theorem mono (h : Fits xs c r d values m s) (wellFormed : d.WellFormed)
    (wellFormed' : d'.WellFormed) (narrows : d.Narrows d')
    (same : ∀ cell ∈ r.cells, values'.get? cell.index = values.get? cell.index) :
    Fits xs c r d' values' m s := by
  refine { h with
    known := fun x mem => ?_
    size := by rw [same _ (by simp [cells]), h.size]
    start := by rw [same _ (by simp [cells]), h.start]
    stop := by rw [same _ (by simp [cells]), h.stop]
    shape := fun k x here => ?_ }
  · have more := narrows.extends
    exact ⟨Nat.lt_of_lt_of_le (h.known x mem).1 more.intervals,
      Nat.lt_of_lt_of_le (h.known x mem).2 more.integers⟩
  · rcases h.shape k x here with ⟨has, covered⟩ | ⟨done, cleared⟩
    · exact .inl ⟨has, covered.mono narrows⟩
    · exact .inr ⟨isDone_mono wellFormed wellFormed' narrows (.refl s) done, cleared.mono narrows⟩

theorem mem_activities (h : Fits xs c r d values m s) {k : Nat} {x : Activity}
    (here : r.activities.get? k = some x) : x ∈ xs := by
  rw [← h.activities]
  simp only [Table.get?, Table.toList] at here ⊢
  obtain ⟨inside, rfl⟩ := Array.getElem?_eq_some_iff.1 here
  simp

theorem exists_get? (h : Fits xs c r d values m s) {x : Activity} (mem : x ∈ xs) :
    ∃ k, r.activities.get? k = some x := by
  rw [← h.activities] at mem
  obtain ⟨k, inside, rfl⟩ := List.getElem_of_mem mem
  refine ⟨k, ?_⟩
  simp only [Table.get?, Table.toList, Array.length_toList] at inside ⊢
  simp [inside]

end Fits

/-- The active activities with their bounds, once those that are done were taken out. -/
structure Captures (xs : List Activity) (c : Capacity) (r : Resource) (d : Domains)
    (values : Table Int) (m : Nat) (s : Span) (cs : List Captured) : Prop
    extends Fits xs c r d values m s where
  fresh : ∀ k x, r.activities.get? k = some x → r.active.Has m k → isDone d s x = .ok false
  captured : List.Forall₂ (fun k b => r.activities.get? k = some b.activity ∧
    b.activity.bounds d = .ok b.bounds) (r.active.elements.toList.take m) cs

namespace Captures

variable {xs : List Activity} {c : Capacity} {r : Resource} {d : Domains} {values : Table Int}
  {m : Nat} {s : Span} {cs : List Captured} (h : Captures xs c r d values m s cs)
include h

theorem exists_key {b : Captured} (mem : b ∈ cs) : ∃ k, r.active.Has m k ∧
    r.activities.get? k = some b.activity ∧ b.activity.bounds d = .ok b.bounds := by
  obtain ⟨j, inside, rfl⟩ := List.getElem_of_mem mem
  have inside' := h.captured.length_eq ▸ inside
  have pair := List.Forall₂.get h.captured inside' inside
  exact ⟨_, SparseSet.mem_take_iff.1 (List.getElem_mem inside'), pair⟩

theorem exists_captured {k : Nat} {x : Activity} (here : r.activities.get? k = some x)
    (has : r.active.Has m k) : ∃ b ∈ cs, b.activity = x := by
  obtain ⟨j, inside, rfl⟩ := List.getElem_of_mem (SparseSet.mem_take_iff.2 has)
  have inside' := h.captured.length_eq ▸ inside
  have pair := List.Forall₂.get h.captured inside inside'
  refine ⟨_, List.getElem_mem inside', ?_⟩
  have known := pair.1
  rw [List.get_eq_getElem, here] at known
  simpa using known.symm

/-- A captured activity lies within the span and is not absent. -/
theorem contains {b : Captured} (mem : b ∈ cs) : s.Contains b.bounds.toBounds ∧
    ∀ v, d.interval b.activity.interval = .ok v → v.isAbsent = false := by
  obtain ⟨k, has, here, known⟩ := h.exists_key mem
  have fresh := h.fresh k _ here has
  obtain ⟨v, row, same, -, -, -, fixed⟩ := Activity.bounds_eq_ok known
  constructor
  · rcases h.shape k _ here with ⟨-, v', row', covered⟩ | ⟨done, -⟩
    · rw [row] at row'
      cases row'
      exact same ▸ covered
    · rw [fresh] at done
      cases done
  · intro v' row'
    rw [row] at row'
    cases row'
    cases absent : v.isAbsent with
    | false => rfl
    | true =>
      have done : isDone d s b.activity = .ok true :=
        isDone_eq_true_iff.2 ⟨v, b.bounds.isFixed, row, fixed, .inl absent⟩
      rw [fresh] at done
      cases done

theorem allows (wellFormed : d.WellFormed) {a : Assignment} (admits : d.Admits a) :
    ∀ b ∈ cs, b.Allows a := by
  intro b mem
  obtain ⟨k, -, -, known⟩ := h.exists_key mem
  exact Activity.allows_of_bounds wellFormed known admits

theorem heightsHold (wellFormed : d.WellFormed) :
    ∀ b ∈ cs.map Captured.bounds, b.HeightsHold := by
  intro b mem
  obtain ⟨b', mem', rfl⟩ := List.mem_map.1 mem
  obtain ⟨k, -, -, known⟩ := h.exists_key mem'
  exact Activity.heightsHold_of_bounds wellFormed known

/-- Captured activities execute within the span. -/
theorem within_span (wellFormed : d.WellFormed) {a : Assignment} (admits : d.Admits a)
    {b : Captured} (mem : b ∈ cs) {time : Int} (executes : b.ExecutesAt a time) :
    s.start ≤ time ∧ time < s.stop := by
  have between := (h.allows wellFormed admits b mem).between executes
  have inside := (h.contains mem).1
  exact ⟨Int.le_trans inside.1 between.1, Int.lt_of_lt_of_le between.2 inside.2⟩

/-- The first numbers of the active set select the captured activities. -/
theorem select_take : r.select (r.active.elements.toList.take m) = cs.map Captured.activity := by
  have pairs := h.captured
  generalize r.active.elements.toList.take m = members at pairs
  clear h
  induction pairs with
  | nil => rfl
  | cons pair _ ih => simp [select_cons, ih, pair.1]

/-- The captured activities are some of all activities, in another order. -/
theorem subperm : (cs.map Captured.activity).Subperm xs := by
  rw [← h.select_take, ← h.activities, ← select_range]
  exact ((List.take_sublist m _).filterMap _).subperm.trans (select_perm h.valid.perm).subperm

/-- Within the span the level is that of the captured activities. -/
theorem level_eq {a : Assignment} (admits : d.Admits a) {time : Int} (le : s.start ≤ time)
    (lt : time < s.stop) : a.level xs time = a.level (cs.map Captured.activity) time := by
  -- Both are levels of the same activities, in another order and without those that are done.
  have rest : a.level (r.select (r.active.elements.toList.drop m)) time = 0 := by
    refine Assignment.level_eq_zero fun x mem => ?_
    obtain ⟨k, later, here⟩ := mem_select_iff.1 mem
    rcases h.shape k x here with ⟨has, -⟩ | ⟨done, -⟩
    · have nodup := h.valid.nodup_take r.active.elements.toList.length
      rw [List.take_length, ← List.take_append_drop m r.active.elements.toList] at nodup
      exact absurd rfl ((List.nodup_append.1 nodup).2.2 k (SparseSet.mem_take_iff.2 has) k later)
    · exact idle_of_isDone done admits le lt
  calc a.level xs time
      = a.level (r.select (List.range r.activities.size)) time := by
        rw [select_range, h.activities]
    _ = a.level (r.select r.active.elements.toList) time :=
        a.level_perm (select_perm h.valid.perm.symm) time
    _ = a.level (r.select (r.active.elements.toList.take m)) time +
          a.level (r.select (r.active.elements.toList.drop m)) time := by
        rw [← Assignment.level_append, ← select_append, List.take_append_drop]
    _ = a.level (cs.map Captured.activity) time := by
        rw [h.select_take, rest, Int.add_zero]

/-- If the captured activities are cleared, all activities are. -/
theorem cleared_of_captured (captured : ∀ b ∈ cs, Cleared xs c d b.activity) :
    ∀ x ∈ xs, Cleared xs c d x := by
  intro x mem
  obtain ⟨k, here⟩ := h.exists_get? mem
  rcases h.shape k x here with ⟨has, -⟩ | ⟨-, cleared⟩
  · obtain ⟨b, mem, same⟩ := h.exists_captured here has
    exact same ▸ captured b mem
  · exact cleared

/-- What is known of the level of the captured activities makes them cleared. -/
theorem cleared_of_level (wellFormed : d.WellFormed) {b : Captured} (mem : b ∈ cs)
    (within : ∀ a, d.Admits a → ∀ time, b.ExecutesAt a time →
      c.minimum ≤ a.level (cs.map Captured.activity) time ∧
        a.level (cs.map Captured.activity) time ≤ c.maximum) : Cleared xs c d b.activity := by
  intro a admits time executes
  obtain ⟨le, lt⟩ := h.within_span wellFormed admits mem executes
  rw [h.level_eq admits le lt]
  exact within a admits time executes

/-- Where a captured activity executes and all of them are fixed or elsewhere, the profile shows the
level. -/
theorem level_of_isConsistent (wellFormed : d.WellFormed) {profile : Profile}
    (build : Profile.build (cs.map Captured.bounds) = .ok profile)
    (consistent : profile.isConsistent c.minimum c.maximum = true) {a : Assignment}
    (admits : d.Admits a) {b : Captured} (mem : b ∈ cs) {time : Int}
    (executes : b.ExecutesAt a time)
    (others : ∀ b ∈ cs, b.bounds.isFixed = true ∨ time < b.bounds.startMin ∨ b.bounds.endMax ≤ time) :
    c.minimum ≤ a.level (cs.map Captured.activity) time ∧
      a.level (cs.map Captured.activity) time ≤ c.maximum := by
  have allows := h.allows wellFormed admits
  have ordered : ∀ x ∈ cs.map Captured.bounds, x.Ordered := by
    intro x inside
    obtain ⟨b, mem, rfl⟩ := List.mem_map.1 inside
    exact (allows b mem).ordered
  have represents := Profile.represents_of_build ordered build
  have between := (allows b mem).between executes
  obtain ⟨⟨q₁, mem₁, eq₁⟩, ⟨q₂, mem₂, eq₂⟩, -⟩ :=
    represents.changes b.bounds (List.mem_map_of_mem mem) (by omega)
  obtain ⟨-, q, stop, stretch, le, lt⟩ := Profile.segmentContaining_spec represents.ascending
    ⟨q₁, mem₁, (by omega : q₁.time ≤ time)⟩ ⟨q₂, mem₂, by omega⟩
  obtain ⟨load, overlapping⟩ := represents.load q stretch.mem time le fun p mem' later => by
    have := stretch.gap p mem'
    omega
  have exact (b : Captured) (mem : b ∈ cs) :
      b.bounds.Exact ∨ time < b.bounds.startMin ∨ b.bounds.endMax ≤ time := by
    obtain ⟨k, -, -, known⟩ := h.exists_key mem
    exact (others b mem).imp (fun fixed =>
      Activity.exact_of_bounds known fixed (h.contains mem).2) id
  have level := Profile.loadAt_of_exact allows exact
  have certain : b.bounds.isMandatoryAt time = true := by
    rcases exact b mem with exact | outside
    · exact ((allows b mem).of_exact exact).2 executes
    · omega
  have busy := Profile.overlappingAt_pos (List.mem_map_of_mem mem) certain
  have tested := List.all_eq_true.1 consistent q stretch.mem
  rw [load, level, overlapping] at tested
  simp only [Load.violates, Bool.or_eq_true, beq_iff_eq, Bool.not_eq_true', Bool.or_eq_false_iff,
    decide_eq_false_iff_not] at tested
  omega

end Captures

end Resource

end Scheduling
