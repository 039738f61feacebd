import Mathlib.Data.List.Nodup
import Mathlib.Data.List.Pairwise
import Mathlib.Data.List.Perm.Subperm
import Scheduling.Agenda
import Scheduling.Proofs.Backtracking

/-!
# Steps of the agenda

Queueing, taking and dropping propagators keep `Agenda.Valid`. Nobody is lost: a propagator that
waits does so until it is taken or all waiting ends.

Results:
* `Agenda.valid_enqueue`, `Agenda.valid_pop`, `Agenda.valid_clear`: the steps keep the agenda valid.
* `Agenda.isWaiting_enqueue`, `Agenda.isWaiting_pop`, `Agenda.isWaiting_clear`: who waits afterwards.
* `Agenda.not_isWaiting_of_pop_eq_none`: nobody waits if nobody can be taken.
* `Agenda.length_toList_of_pop`: one less waits when somebody is taken.
* `Agenda.Serves`: the agendas on which the first propagators find a place.
-/

namespace Scheduling

namespace Agenda

/-! ## The buckets -/

theorem mem_toList_iff {a : Agenda} (occupied : ∀ level, level ∈ a.occupied ↔ a.bucket level ≠ [])
    {p : PropagatorId} : p ∈ a.toList ↔ ∃ level, p ∈ a.bucket level := by
  simp only [toList, List.mem_flatMap]
  constructor
  · rintro ⟨level, -, mem⟩
    exact ⟨level, mem⟩
  · rintro ⟨level, mem⟩
    exact ⟨level, (occupied level).2 (List.ne_nil_of_mem mem), mem⟩

/-- Validity, bucket by bucket. -/
theorem valid_iff {a : Agenda} : a.Valid ↔
    a.occupied.Pairwise (· < ·) ∧ (∀ level, level ∈ a.occupied ↔ a.bucket level ≠ []) ∧
      (∀ p, a.isWaiting p = true ↔ ∃ level, p ∈ a.bucket level) ∧
      (∀ level, (a.bucket level).Nodup) ∧
      ∀ level level' p, p ∈ a.bucket level → p ∈ a.bucket level' → level = level' := by
  constructor
  · rintro ⟨ascending, occupied, waiting, nodup⟩
    refine ⟨ascending, occupied, fun p => (waiting p).trans (mem_toList_iff occupied), ?_, ?_⟩
    · intro level
      by_cases empty : a.bucket level = []
      · simp [empty]
      · exact (List.nodup_flatMap.1 nodup).1 level ((occupied level).2 empty)
    · intro level level' p mem mem'
      by_contra differs
      have symmetric : Std.Symm (Function.onFun List.Disjoint a.bucket) :=
        ⟨fun _ _ h _ mem mem' => h mem' mem⟩
      have disjoint := (List.nodup_flatMap.1 nodup).2.forall
        ((occupied level).2 (List.ne_nil_of_mem mem))
        ((occupied level').2 (List.ne_nil_of_mem mem')) differs
      exact disjoint mem mem'
  · rintro ⟨ascending, occupied, waiting, each, disjoint⟩
    refine ⟨ascending, occupied, fun p => (waiting p).trans (mem_toList_iff occupied).symm,
      List.nodup_flatMap.2 ⟨fun level _ => each level, ?_⟩⟩
    refine ascending.imp fun {level level'} lt => ?_
    intro p mem mem'
    have := disjoint level level' p mem mem'
    omega

theorem bucket_set (t : Table (List PropagatorId)) (level other : Nat) (queue : List PropagatorId)
    (inside : level < t.size) :
    ((t.set level queue).get? other).getD [] =
      if level = other then queue else (t.get? other).getD [] := by
  rw [Table.get?_set, if_pos inside]
  split <;> rfl

theorem pairwise_insertLevel {level : Nat} {levels : List Nat} (h : levels.Pairwise (· < ·))
    (new : level ∉ levels) : (insertLevel level levels).Pairwise (· < ·) := by
  induction levels with
  | nil => simp [insertLevel]
  | cons first rest ih =>
    obtain ⟨least, sorted⟩ := List.pairwise_cons.1 h
    have differs : level ≠ first := fun eq => new (by simp [eq])
    unfold insertLevel
    split
    · refine List.pairwise_cons.2 ⟨fun other mem => ?_, h⟩
      rcases List.mem_cons.1 mem with rfl | mem
      · omega
      · have := least other mem
        omega
    · refine List.pairwise_cons.2 ⟨fun other mem => ?_, ih sorted fun mem => new (by simp [mem])⟩
      rcases mem_insertLevel.1 mem with rfl | mem
      · omega
      · exact least other mem

/-! ## Queueing -/

/-- What queueing leaves: the agenda itself if the propagator waits, and a longer queue otherwise. -/
theorem enqueue_spec {a a' : Agenda} {p : PropagatorId} {priority : Priority}
    (h : a.enqueue p priority = .ok a') :
    a.isWaiting p = true ∧ a' = a ∨
      a.isWaiting p = false ∧
        (∀ level, a'.bucket level =
          if priority.level = level then a.bucket level ++ [p] else a.bucket level) ∧
        (∀ q, a'.isWaiting q = true ↔ a.isWaiting q = true ∨ q = p) ∧
        a'.occupied = if (a.bucket priority.level).isEmpty then
          insertLevel priority.level a.occupied else a.occupied := by
  unfold enqueue at h
  by_cases waits : a.isWaiting p = true
  · simp only [waits, if_true, pure, Except.pure, Except.ok.injEq] at h
    exact .inl ⟨waits, h.symm⟩
  · right
    refine ⟨by simpa using waits, ?_⟩
    cases found : a.buckets.read priority.level with
    | error cause => simp [waits, found, bind, Except.bind] at h
    | ok queue =>
      simp only [waits, found, bind, Except.bind, pure, Except.pure, Bool.false_eq_true, if_false,
        Except.ok.injEq] at h
      have row := Table.read_eq_ok_iff.1 found
      have inside : priority.level < a.buckets.size := by
        by_contra beyond
        simp [Table.get?_eq_none_iff.2 (Nat.le_of_not_lt beyond)] at row
      have here : a.bucket priority.level = queue := by simp [bucket, row]
      subst h
      refine ⟨fun level => ?_, fun q => ?_, by rw [here]⟩
      · simp only [bucket]
        rw [bucket_set _ _ _ _ inside]
        split
        · rename_i same; rw [← same, row]; rfl
        · rfl
      · have grown : p.index < (a.waiting.growTo p.index false).size := by
          simp [Table.growTo, Table.size]; omega
        simp only [isWaiting, Table.get?_set, grown, if_true]
        by_cases same : p.index = q.index
        · have : q = p := by cases p; cases q; simp_all
          simp [same, this]
        · have : q ≠ p := fun eq => same (by rw [eq])
          simp only [same, if_false, this, or_false]
          rw [Table.get?_growTo]
          split
          · rfl
          · rename_i beyond
            rw [Table.get?_eq_none_iff.2 (Nat.le_of_not_lt beyond)]
            split <;> simp

theorem isWaiting_enqueue {a a' : Agenda} {p : PropagatorId} {priority : Priority}
    (h : a.enqueue p priority = .ok a') (q : PropagatorId) :
    a'.isWaiting q = true ↔ a.isWaiting q = true ∨ q = p := by
  rcases enqueue_spec h with ⟨waits, rfl⟩ | ⟨-, -, waiting, -⟩
  · constructor
    · exact .inl
    · rintro (waits' | rfl)
      · exact waits'
      · exact waits
  · exact waiting q

theorem valid_enqueue {a a' : Agenda} {p : PropagatorId} {priority : Priority} (valid : a.Valid)
    (h : a.enqueue p priority = .ok a') : a'.Valid := by
  rcases enqueue_spec h with ⟨-, rfl⟩ | ⟨idle, buckets, waiting, levels⟩
  · exact valid
  · obtain ⟨ascending, occupied, flags, each, disjoint⟩ := valid_iff.1 valid
    have absent (level : Nat) : p ∉ a.bucket level := fun mem => by
      rw [(flags p).2 ⟨level, mem⟩] at idle
      cases idle
    refine valid_iff.2 ⟨?_, fun level => ?_, fun q => ?_, fun level => ?_, fun level level' q => ?_⟩
    · rw [levels]
      split
      · rename_i empty
        refine pairwise_insertLevel ascending fun mem => (occupied _).1 mem ?_
        simpa using empty
      · exact ascending
    · rw [levels, buckets]
      by_cases same : priority.level = level
      · subst same
        simp only [if_true, ne_eq, List.append_eq_nil_iff, List.cons_ne_self, and_false,
          not_false_eq_true, iff_true]
        split
        · exact mem_insertLevel.2 (.inl rfl)
        · rename_i nonempty
          exact (occupied _).2 (by simpa using nonempty)
      · simp only [same, if_false]
        rw [← occupied]
        split
        · rw [mem_insertLevel]
          have : level ≠ priority.level := Ne.symm same
          simp [this]
        · rfl
    · rw [waiting, flags]
      simp only [buckets]
      constructor
      · rintro (⟨level, mem⟩ | rfl)
        · exact ⟨level, by split <;> simp [mem]⟩
        · exact ⟨priority.level, by simp⟩
      · rintro ⟨level, mem⟩
        split at mem
        · rcases List.mem_append.1 mem with mem | mem
          · exact .inl ⟨level, mem⟩
          · exact .inr (by simpa using mem)
        · exact .inl ⟨level, mem⟩
    · rw [buckets]
      split
      · refine List.nodup_append.2 ⟨each level, List.nodup_singleton _, fun q mem r last => ?_⟩
        rw [List.mem_singleton.1 last]
        rintro rfl
        exact absent level mem
      · exact each level
    · simp only [buckets]
      have := disjoint level level' q
      have := absent level
      have := absent level'
      grind

/-! ## Taking and dropping -/

/-- The two ways in which a valid agenda answers. -/
theorem pop_spec {a a' : Agenda} {taken : Option PropagatorId} (valid : a.Valid)
    (h : a.pop = (taken, a')) :
    taken = none ∧ a.occupied = [] ∧ a' = a ∨
      ∃ p level queue higher, taken = some p ∧ a.occupied = level :: higher ∧
        a.bucket level = p :: queue ∧
        (∀ other, a'.bucket other = if level = other then queue else a.bucket other) ∧
        (∀ q, a'.isWaiting q = true ↔ a.isWaiting q = true ∧ q ≠ p) ∧
        a'.occupied = if queue.isEmpty then higher else a.occupied := by
  unfold pop at h
  cases levels : a.occupied with
  | nil =>
    simp only [levels, Prod.mk.injEq] at h
    exact .inl ⟨h.1.symm, rfl, h.2.symm⟩
  | cons level higher =>
    cases queued : a.bucket level with
    | nil => exact absurd queued ((valid.mem_occupied level).1 (by simp [levels]))
    | cons p queue =>
      simp only [levels, queued, Prod.mk.injEq] at h
      obtain ⟨rfl, rfl⟩ := h
      have inside : level < a.buckets.size := by
        by_contra beyond
        simp [bucket, Table.get?_eq_none_iff.2 (Nat.le_of_not_lt beyond)] at queued
      refine .inr ⟨p, level, queue, higher, rfl, rfl, queued, fun other => bucket_set _ _ _ _ inside,
        fun q => ?_, rfl⟩
      simp only [isWaiting, Table.get?_set]
      by_cases same : p.index = q.index
      · have : q = p := by cases p; cases q; simp_all
        simp only [same, if_true, this, ne_eq, not_true_eq_false, and_false, iff_false]
        split <;> simp
      · have : q ≠ p := fun eq => same (by rw [eq])
        simp [same, this]

theorem valid_pop {a a' : Agenda} {taken : Option PropagatorId} (valid : a.Valid)
    (h : a.pop = (taken, a')) : a'.Valid := by
  rcases pop_spec valid h with ⟨-, -, rfl⟩ | ⟨p, level, queue, higher, -, levels, queued, buckets,
    waiting, occupied'⟩
  · exact valid
  · obtain ⟨ascending, occupied, flags, each, disjoint⟩ := valid_iff.1 valid
    rw [levels] at ascending occupied'
    obtain ⟨least, sorted⟩ := List.pairwise_cons.1 ascending
    have single := each level
    rw [queued] at single
    obtain ⟨once, rest⟩ := List.nodup_cons.1 single
    refine valid_iff.2 ⟨?_, fun other => ?_, fun q => ?_, fun other => ?_, fun other other' q => ?_⟩
    · rw [occupied']
      split
      · exact sorted
      · exact ascending
    · have before := occupied other
      rw [levels, List.mem_cons] at before
      rw [occupied', buckets]
      by_cases same : level = other
      · subst same
        have absent : level ∉ higher := fun mem => Nat.lt_irrefl _ (least level mem)
        cases queue <;> simp [absent]
      · simp only [same, if_false]
        rw [← before]
        have : other ≠ level := Ne.symm same
        split <;> simp [this]
    · rw [waiting, flags]
      simp only [buckets]
      constructor
      · rintro ⟨⟨other, mem⟩, differs⟩
        refine ⟨other, ?_⟩
        split
        · rename_i same
          subst same
          rw [queued] at mem
          exact (List.mem_cons.1 mem).resolve_left differs
        · exact mem
      · rintro ⟨other, mem⟩
        split at mem
        · rename_i same
          subst same
          exact ⟨⟨level, by rw [queued]; exact List.mem_cons_of_mem _ mem⟩,
            fun eq => once (eq ▸ mem)⟩
        · rename_i differs
          refine ⟨⟨other, mem⟩, fun eq => differs ?_⟩
          exact disjoint level other p (by simp [queued]) (eq ▸ mem)
    · rw [buckets]
      split
      · exact rest
      · exact each other
    · simp only [buckets]
      have inQueue (r : PropagatorId) (mem : r ∈ queue) : r ∈ a.bucket level := by
        rw [queued]; exact List.mem_cons_of_mem _ mem
      have := disjoint other other' q
      have := disjoint level other' q
      have := disjoint level other q
      grind

/-- Nobody waits if nobody can be taken. -/
theorem not_isWaiting_of_pop_eq_none {a a' : Agenda} (valid : a.Valid) (h : a.pop = (none, a'))
    (p : PropagatorId) : a'.isWaiting p = false := by
  rcases pop_spec valid h with ⟨-, empty, rfl⟩ | ⟨_, _, _, _, taken, _⟩
  · have none : p ∉ a'.toList := by simp [toList, empty]
    simpa using fun waits => none ((valid.isWaiting_iff p).1 waits)
  · cases taken

/-- Whoever waits still does so when somebody else is taken. -/
theorem isWaiting_pop {a a' : Agenda} {p : PropagatorId} (valid : a.Valid)
    (h : a.pop = (some p, a')) (q : PropagatorId) :
    a'.isWaiting q = true ↔ a.isWaiting q = true ∧ q ≠ p := by
  rcases pop_spec valid h with ⟨taken, _⟩ | ⟨_, _, _, _, taken, _, _, _, waiting, _⟩
  · cases taken
  · cases taken
    exact waiting q

theorem isWaiting_clear (a : Agenda) (p : PropagatorId) : a.clear.isWaiting p = false := by
  simp only [isWaiting, clear, Table.map, Table.get?, Array.getElem?_map]
  cases a.waiting.items[p.index]? <;> rfl

theorem valid_clear (a : Agenda) : a.clear.Valid := by
  have empty (level : Nat) : a.clear.bucket level = [] := by
    simp only [bucket, clear, Table.map, Table.get?, Array.getElem?_map]
    cases a.buckets.items[level]? <;> rfl
  refine valid_iff.2 ⟨List.Pairwise.nil, fun level => ?_, fun p => ?_, fun level => ?_,
    fun level level' p mem => ?_⟩
  · rw [empty]
    simp [clear]
  · simp [empty, isWaiting_clear]
  · simp [empty]
  · simp [empty] at mem

/-! ## How many wait -/

/-- One less waits when somebody is taken. -/
theorem length_toList_of_pop {a a' : Agenda} {p : PropagatorId} (valid : a.Valid)
    (h : a.pop = (some p, a')) : a'.toList.length + 1 = a.toList.length := by
  have valid' := valid_pop valid h
  have waits : p ∈ a.toList := by
    rcases pop_spec valid h with ⟨taken, -⟩ | ⟨q, level, queue, higher, taken, -, queued, -⟩
    · cases taken
    · cases taken
      exact (mem_toList_iff valid.mem_occupied).2 ⟨level, by simp [queued]⟩
  have left (q : PropagatorId) : q ∈ a'.toList ↔ q ∈ a.toList ∧ q ≠ p := by
    rw [← valid'.isWaiting_iff, ← valid.isWaiting_iff]
    exact isWaiting_pop valid h q
  have gone : p ∉ a'.toList := fun mem => ((left p).1 mem).2 rfl
  have same : (p :: a'.toList).Perm a.toList := by
    refine (List.perm_ext_iff_of_nodup (List.nodup_cons.2 ⟨gone, valid'.nodup⟩) valid.nodup).2 ?_
    intro q
    rw [List.mem_cons, left]
    by_cases eq : q = p
    · simp [eq, waits]
    · simp [eq]
  exact same.length_eq

theorem size_buckets_of_enqueue {a a' : Agenda} {p : PropagatorId} {priority : Priority}
    (h : a.enqueue p priority = .ok a') : a'.buckets.size = a.buckets.size := by
  unfold enqueue at h
  split at h
  · cases h
    rfl
  · cases found : a.buckets.read priority.level with
    | error fault => simp [found, bind, Except.bind] at h
    | ok queue =>
      simp only [found, bind, Except.bind, pure, Except.pure, Except.ok.injEq] at h
      subst h
      exact Table.size_set ..

theorem size_buckets_of_pop {a a' : Agenda} {taken : Option PropagatorId}
    (h : a.pop = (taken, a')) : a'.buckets.size = a.buckets.size := by
  unfold pop at h
  split at h
  · cases h
    rfl
  · split at h <;> cases h
    · rfl
    · exact Table.size_set ..

/-- The agenda is valid and has a level for every priority, and only keys below `n` wait. -/
structure Serves (a : Agenda) (n : Nat) : Prop where
  valid : a.Valid
  levels : ∀ priority : Priority, priority.level < a.buckets.size
  below : ∀ p, a.isWaiting p = true → p.index < n

namespace Serves

variable {a a' : Agenda} {n : Nat}

theorem empty : Agenda.empty.Serves 0 where
  valid := valid_empty
  levels priority := by cases priority <;> decide
  below p waits := by simp [isWaiting, Agenda.empty, ofLevels] at waits

theorem mono (h : a.Serves n) {m : Nat} (le : n ≤ m) : a.Serves m :=
  ⟨h.valid, h.levels, fun p waits => Nat.lt_of_lt_of_le (h.below p waits) le⟩

/-- Whoever waits is one of the first `n`, and waits once. -/
theorem length_le (h : a.Serves n) : a.toList.length ≤ n := by
  have nodup : (a.toList.map PropagatorId.index).Nodup :=
    h.valid.nodup.map fun p q same => by cases p; cases q; simp_all
  have inside : a.toList.map PropagatorId.index ⊆ List.range n := fun index mem => by
    obtain ⟨p, there, rfl⟩ := List.mem_map.1 mem
    exact List.mem_range.2 (h.below p ((h.valid.isWaiting_iff p).2 there))
  simpa using (List.subperm_of_subset nodup inside).length_le

theorem exists_enqueue (h : a.Serves n) (p : PropagatorId) (priority : Priority) :
    ∃ a', a.enqueue p priority = .ok a' := by
  unfold enqueue
  split
  · exact ⟨a, rfl⟩
  · obtain ⟨queue, row⟩ := Table.exists_get? (h.levels priority)
    rw [Table.read_eq_ok_iff.2 row]
    exact ⟨_, rfl⟩

theorem enqueue (h : a.Serves n) {p : PropagatorId} {priority : Priority} (known : p.index < n)
    (queued : a.enqueue p priority = .ok a') : a'.Serves n := by
  refine ⟨valid_enqueue h.valid queued, fun priority => ?_, fun q waits => ?_⟩
  · rw [size_buckets_of_enqueue queued]
    exact h.levels priority
  · rcases (isWaiting_enqueue queued q).1 waits with waits | rfl
    · exact h.below q waits
    · exact known

theorem pop (h : a.Serves n) {taken : Option PropagatorId} (popped : a.pop = (taken, a')) :
    a'.Serves n := by
  refine ⟨valid_pop h.valid popped, fun priority => ?_, fun p waits => ?_⟩
  · rw [size_buckets_of_pop popped]
    exact h.levels priority
  · cases taken with
    | none =>
      rw [not_isWaiting_of_pop_eq_none h.valid popped] at waits
      cases waits
    | some q => exact h.below p ((isWaiting_pop h.valid popped p).1 waits).1

theorem clear (h : a.Serves n) : a.clear.Serves n where
  valid := valid_clear a
  levels priority := by simpa [Agenda.clear, Table.map, Table.size] using h.levels priority
  below p waits := by
    rw [isWaiting_clear] at waits
    cases waits

/-- Whoever is taken is one of the first `n`. -/
theorem lt_of_pop (h : a.Serves n) {p : PropagatorId} (popped : a.pop = (some p, a')) :
    p.index < n := by
  rcases pop_spec h.valid popped with ⟨taken, -⟩ | ⟨q, level, queue, higher, taken, -, queued, -⟩
  · cases taken
  · cases taken
    exact h.below p ((h.valid.isWaiting_iff p).2
      ((mem_toList_iff h.valid.mem_occupied).2 ⟨level, by simp [queued]⟩))

end Serves

end Agenda

end Scheduling
