import Mathlib.Data.Fin.Tuple.Take
import Mathlib.Data.List.Permutation
import Scheduling.Proofs.Disjunctive.Tightening

/-!
# The sweeps compute the rules

A sweep lets tasks into its tree one after the other. Whenever it asks the tree for a completion,
the tasks inside are those of the rule, whatever the orders are in which tasks of equal bounds come,
and so each of the three sweeps finds what its rule asks for.

Results:
* `Sweep.Opens`, `Sweep.Opened`: a front has let in a set of tasks.
* `Sweep.Holds.exists_completion`: the completion that a tree answers.
* `Sweep.isOverloadFree_eq`, `Sweep.raisedStarts_eq`, `Sweep.loweredEnds_eq`: the three sweeps.
* `Tasks.exists_filterLoop_eq`: one round of the filter.
* `Sweep.computes_rules`: all of it, said in full.
-/

namespace Scheduling

open Finset

namespace Sweep

variable {n : Nat}

/-! ## Fronts -/

/-- A front has let in a set of tasks, and the others wait in the order of their latest starts. -/
structure Opens (s : Sweep n) (f : Front n) (T : Finset (Fin n)) : Prop where
  holds : s.Holds f.tree T
  inside : ∀ i, f.inside.get i = decide (i ∈ T)
  none : f.last = none → T = ∅
  last : ∀ l, f.last = some l → ∀ j ∈ T, s.startMax.get j ≤ s.startMax.get l
  waits : ∀ j ∈ T, ∀ i ∈ f.waiting, s.startMax.get j ≤ s.startMax.get i
  sorted : f.waiting.Pairwise fun i j => s.startMax.get i ≤ s.startMax.get j

theorem opens_front (s : Sweep n) (derived : s.Derived) : s.Opens s.front ∅ where
  holds := s.holds_reset
  inside i := by simp [front, get_eq_getElem]
  none _ := rfl
  last := by simp
  waits := by simp
  sorted := derived.byStartMax

/-- The first of those that wait is let in. -/
theorem Opens.letFirst {s : Sweep n} {i : Fin n} {waiting : List (Fin n)}
    {tree tree' : CompletionTree} {inside : Vector Bool n} {last : Option (Fin n)}
    {T : Finset (Fin n)} (h : s.Opens ⟨tree, inside, last, i :: waiting⟩ T)
    (holds : s.Holds tree' (Insert.insert i T)) :
    s.Opens ⟨tree', Vector.set inside i true i.isLt, some i, waiting⟩ (Insert.insert i T) where
  holds := holds
  inside j := by
    rw [get_set, h.inside j]
    by_cases same : i = j
    · simp [same]
    · simp [same, Ne.symm same]
  none impossible := by cases impossible
  last l eq j mem := by
    cases eq
    rcases mem_insert.1 mem with rfl | mem
    · exact Int.le_refl _
    · exact h.waits j mem _ List.mem_cons_self
  waits j mem k mem' := by
    rcases mem_insert.1 mem with rfl | mem
    · exact (List.pairwise_cons.1 h.sorted).1 k mem'
    · exact h.waits j mem k (List.mem_cons_of_mem _ mem')
  sorted := (List.pairwise_cons.1 h.sorted).2

section Fronts

variable {s : Sweep n} (derived : s.Derived) (shallow : CompletionTree.depthFor n ≤ 63)
  (nonneg : ∀ i, 0 ≤ s.duration.get i) (total : ∑ i, s.duration.get i ≤ Width.w64.greatest)
include derived shallow nonneg total

/-- A front lets in exactly the waiting tasks that have to start before a limit. -/
theorem exists_letIn {limit : Int} {waiting : List (Fin n)} {tree : CompletionTree}
    {inside : Vector Bool n} {last : Option (Fin n)} {T : Finset (Fin n)}
    (opens : s.Opens ⟨tree, inside, last, waiting⟩ T) :
    ∃ f U, s.letIn limit tree inside last waiting = .ok f ∧ s.Opens f U ∧
      (∀ j ∈ U, j ∈ T ∨ s.startMax.get j < limit) ∧
      (∀ j, j ∈ T ∨ j ∈ waiting → j ∈ U ∨ j ∈ f.waiting ∧ limit ≤ s.startMax.get j) ∧
      ((∀ l, last = some l → l ∈ T) → ∀ l, f.last = some l → l ∈ U) := by
  induction waiting generalizing tree inside last T with
  | nil =>
    exact ⟨_, T, rfl, opens, fun j mem => .inl mem, fun j mem => .inl (by simpa using mem), id⟩
  | cons i waiting ih =>
    by_cases before : limit > s.startMax.get i
    · obtain ⟨tree', inserted, holds'⟩ := exists_insert opens.holds derived shallow nonneg total i
      obtain ⟨f, U, ran, opened, each, all, latest⟩ := ih (opens.letFirst holds')
      refine ⟨f, U, ?_, opened, fun j mem => ?_, fun j mem => all j ?_, fun _ => latest ?_⟩
      · have : limit > s.startMax[i] := before
        simp only [Sweep.letIn, this, if_true, inserted, bind, Except.bind]
        exact ran
      · rcases each j mem with mem | lt
        · rcases mem_insert.1 mem with rfl | mem
          · exact .inr before
          · exact .inl mem
        · exact .inr lt
      · rw [mem_insert]
        rw [List.mem_cons] at mem
        tauto
      · rintro l eq
        cases eq
        exact mem_insert_self _ _
    · refine ⟨_, T, ?_, opens, fun j mem => .inl mem, fun j mem => ?_, id⟩
      · have : ¬ limit > s.startMax[i] := before
        simp only [Sweep.letIn, this, if_false]
        rfl
      · rcases mem with mem | mem
        · exact .inl mem
        · refine .inr ⟨mem, ?_⟩
          rcases List.mem_cons.1 mem with rfl | mem
          · exact Int.not_lt.1 before
          · exact Int.le_trans (Int.not_lt.1 before) ((List.pairwise_cons.1 opens.sorted).1 j mem)

theorem exists_advance {f : Front n} {T : Finset (Fin n)} (opens : s.Opens f T) (limit : Int) :
    ∃ f' U, s.advance f limit = .ok f' ∧ s.Opens f' U ∧
      (∀ j ∈ U, j ∈ T ∨ s.startMax.get j < limit) ∧
      (∀ j, j ∈ T ∨ j ∈ f.waiting → j ∈ U ∨ j ∈ f'.waiting ∧ limit ≤ s.startMax.get j) ∧
      ((∀ l, f.last = some l → l ∈ T) → ∀ l, f'.last = some l → l ∈ U) :=
  exists_letIn derived shallow nonneg total opens

/-- The completion without a task is that of a tree that does not hold the task. -/
theorem exists_completionWithout {f : Front n} {T : Finset (Fin n)} (opens : s.Opens f T)
    (i : Fin n) : ∃ tree, s.Holds tree (T.erase i) ∧ s.completionWithout f i = tree.completion := by
  have inside : f.inside[i] = decide (i ∈ T) := opens.inside i
  by_cases mem : i ∈ T
  · obtain ⟨tree, removed, holds⟩ := exists_remove opens.holds derived shallow nonneg total i
    have removed : f.tree.remove s.rank[i] = .ok tree := removed
    exact ⟨tree, holds, by simp only [Sweep.completionWithout, inside, mem, decide_true, if_true,
      removed, bind, Except.bind]⟩
  · refine ⟨f.tree, ?_, by simp [Sweep.completionWithout, inside, mem]⟩
    rw [erase_eq_of_notMem mem]
    exact opens.holds

end Fronts

/-- A front has let in a set of tasks, and all others wait. -/
structure Opened (s : Sweep n) (f : Front n) (T : Finset (Fin n)) : Prop extends s.Opens f T where
  complete : ∀ j, j ∈ T ∨ j ∈ f.waiting
  last_mem : ∀ l, f.last = some l → l ∈ T

theorem opened_front {s : Sweep n} (derived : s.Derived) : s.Opened s.front ∅ where
  toOpens := s.opens_front derived
  complete j := .inr (derived.complete.byStartMax.mem_iff.2 (List.mem_finRange j))
  last_mem := by simp [front]

section Rules

variable {s : Sweep n} (derived : s.Derived) (roomy : s.toTasks.Roomy)
include derived roomy

/-! ## The completion of a set of tasks -/

/-- The tree answers the completion of its tasks; if it has none, a time that is far below all
bounds. -/
theorem Holds.exists_completion {tree : CompletionTree} {T : Finset (Fin n)} (h : s.Holds tree T) :
    ∃ completion, tree.completion = .ok completion ∧ ∀ bound, Width.w64.least / 2 ≤ bound →
      (completion ≤ bound ↔ s.toTasks.earliestCompletion T ≤ bound) := by
  have small (U : Finset (Fin n)) := roomy.sum_le_of_subset U
  obtain ⟨completion, known, -⟩ : ∃ completion, tree.completion = .ok completion ∧
      completion ≤ Width.w64.greatest := by
    refine h.completion_le derived roomy.duration_nonneg ?_ fun j _ => ?_
    · have := small T
      simp only [Width.least, Width.greatest] at *
      omega
    · have := small (T.filter fun i => s.rank.get j ≤ s.rank.get i)
      have := roomy.startMin_le j
      simp only [Width.greatest] at *
      omega
  refine ⟨completion, known, fun bound floor => ?_⟩
  rw [← Tasks.completesBy_iff roomy.duration_nonneg]
  constructor
  · intro le k mem
    -- The task of the least rank among those that do not start before `k` starts no earlier.
    obtain ⟨j, mem', least⟩ := exists_min_image
      (T.filter fun j => s.startMin.get k ≤ s.startMin.get j) s.rank.get
      ⟨k, mem_filter.2 ⟨mem, Int.le_refl _⟩⟩
    obtain ⟨inside, later⟩ := mem_filter.1 mem'
    have same : T.filter (fun i => s.startMin.get k ≤ s.startMin.get i) =
        T.filter fun i => s.rank.get j ≤ s.rank.get i := by
      refine filter_congr fun i listed =>
        ⟨fun le => least i (mem_filter.2 ⟨listed, le⟩), fun le => ?_⟩
      exact Int.le_trans later (derived.startMin_le j i le)
    rw [same]
    have first := roomy.startMin_le j
    have all := small (T.filter fun i => s.rank.get j ≤ s.rank.get i)
    refine Int.le_trans (h.le_completion derived roomy.duration_nonneg known inside
      (Int.add_le_add_right later _) ?_) le
    simp only [Width.greatest] at *
    omega
  · intro completes
    have above : Width.w64.least + ∑ i ∈ T, s.duration.get i ≤ bound := by
      have := small T
      simp only [Width.least, Width.greatest] at *
      omega
    obtain ⟨completion', known', le⟩ := h.completion_le derived roomy.duration_nonneg above
      fun j mem => by
        refine Int.le_trans (Int.add_le_add_left ?_ _) (completes j mem)
        exact sum_le_sum_of_subset_of_nonneg
          (monotone_filter_right T fun i _ le => derived.startMin_le j i le)
          fun i _ _ => roomy.duration_nonneg i
    rw [known] at known'
    cases known'
    exact le

/-- A front lets in the tasks that have to start before a limit, and knows when they are completed
but for one of them. -/
theorem Opened.exists_advance {f : Front n} {T : Finset (Fin n)} (h : s.Opened f T) (limit : Int)
    (before : ∀ j ∈ T, s.startMax.get j < limit) (i : Fin n) :
    ∃ f' completion, s.advance f limit = .ok f' ∧ s.Opened f' (s.toTasks.before limit) ∧
      s.completionWithout f' i = .ok completion ∧ ∀ bound, Width.w64.least / 2 ≤ bound →
        (completion ≤ bound ↔
          s.toTasks.earliestCompletion ((s.toTasks.before limit).erase i) ≤ bound) := by
  have total := roomy.total
  obtain ⟨f', U, advanced, opens, each, all, latest⟩ := Sweep.exists_advance derived roomy.depth_le
    roomy.duration_nonneg total h.toOpens limit
  obtain rfl : U = s.toTasks.before limit := by
    ext j
    rw [Tasks.mem_before, Tasks.latestStart, ← derived.startMax]
    constructor
    · intro mem
      exact (each j mem).elim (before j) id
    · intro lt
      refine (all j (h.complete j)).resolve_right fun waits => ?_
      have := waits.2
      omega
  obtain ⟨tree, holds, without⟩ := exists_completionWithout derived roomy.depth_le
    roomy.duration_nonneg total opens i
  obtain ⟨completion, known, completes⟩ := holds.exists_completion derived roomy
  refine ⟨f', completion, advanced, ⟨opens, fun j => ?_, latest h.last_mem⟩, without.trans known,
    completes⟩
  exact (all j (h.complete j)).imp_right And.left

omit roomy in
/-- What was let in before a limit has to start before a later limit too. -/
theorem startMax_lt_of_mem_before {limit : Int} {key : Fin n → Int} {rest : List (Fin n)}
    (later : ∀ k ∈ rest, limit ≤ key k) :
    ∀ j ∈ s.toTasks.before limit, ∀ k ∈ rest, s.startMax.get j < key k := by
  intro j mem k mem'
  rw [Tasks.mem_before, Tasks.latestStart, ← derived.startMax] at mem
  exact Int.lt_of_lt_of_le mem (later k mem')

/-! ## The overload rule -/

omit derived roomy in
/-- If the tasks that have been let in are completed by the end of the last one of them, then so are
all that are due by it: a task of the same end that is still to come says the same of them. -/
theorem completion_due_le {t : Tasks n} {i : Fin n} {rest : List (Fin n)} {T : Finset (Fin n)}
    (complete : ∀ j, j ∈ T ∨ j ∈ i :: rest) (later : ∀ k ∈ rest, t.endMax.get i ≤ t.endMax.get k)
    (inTime : t.earliestCompletion (Insert.insert i T) ≤ t.endMax.get i)
    (all : ∀ k ∈ rest, t.earliestCompletion (t.due (t.endMax.get k)) ≤ t.endMax.get k) :
    t.earliestCompletion (t.due (t.endMax.get i)) ≤ t.endMax.get i := by
  by_cases tied : ∃ k ∈ rest, t.endMax.get k ≤ t.endMax.get i
  · obtain ⟨k, mem, le⟩ := tied
    have same : t.endMax.get k = t.endMax.get i := Int.le_antisymm le (later k mem)
    rw [← same]
    exact all k mem
  · refine (Tasks.earliestCompletion_mono fun j mem => ?_).trans inTime
    rw [Tasks.mem_due] at mem
    rcases complete j with inside | waits
    · exact mem_insert_of_mem inside
    · rcases List.mem_cons.1 waits with rfl | waits
      · exact mem_insert_self _ _
      · exact absurd ⟨j, waits, mem⟩ tied

/-- Whether the remaining tasks fit. -/
theorem exists_fitsAll {rest : List (Fin n)} {tree : CompletionTree} {T : Finset (Fin n)}
    (holds : s.Holds tree T) (complete : ∀ j, j ∈ T ∨ j ∈ rest)
    (before : ∀ j ∈ T, ∀ i ∈ rest, s.endMax.get j ≤ s.endMax.get i)
    (sorted : rest.Pairwise fun i j => s.endMax.get i ≤ s.endMax.get j) :
    ∃ answer, s.fitsAll tree rest = .ok answer ∧ (answer = true ↔ ∀ i ∈ rest,
      s.toTasks.earliestCompletion (s.toTasks.due (s.endMax.get i)) ≤ s.endMax.get i) := by
  induction rest generalizing tree T with
  | nil => exact ⟨true, rfl, by simp⟩
  | cons i rest ih =>
    obtain ⟨later, sorted⟩ := List.pairwise_cons.1 sorted
    obtain ⟨tree', inserted, holds'⟩ := exists_insert holds derived roomy.depth_le
      roomy.duration_nonneg roomy.total i
    obtain ⟨completion, known, completes⟩ := holds'.exists_completion derived roomy
    have completes := completes (s.endMax.get i) (by
      have := roomy.le_endMax i
      simp only [Width.least, Width.greatest] at *
      omega)
    have dueBy (j : Fin n) (mem : j ∈ Insert.insert i T) : j ∈ s.toTasks.due (s.endMax.get i) := by
      rw [Tasks.mem_due]
      rcases mem_insert.1 mem with rfl | mem
      · exact Int.le_refl _
      · exact before j mem i List.mem_cons_self
    by_cases late : completion > s.endMax.get i
    · have late' : completion > s.endMax[i] := late
      refine ⟨false, ?_, ?_⟩
      · simp only [fitsAll, inserted, known, late', if_true, bind, Except.bind]
        rfl
      · refine iff_of_false (by simp) fun all => ?_
        have := completes.2 ((Tasks.earliestCompletion_mono dueBy).trans (all i List.mem_cons_self))
        omega
    · have inTime : ¬ completion > s.endMax[i] := late
      obtain ⟨answer, ran, iff⟩ := ih holds' (fun j => by
        rw [mem_insert]
        have := complete j
        rw [List.mem_cons] at this
        tauto) (fun j mem k mem' => by
          rcases mem_insert.1 mem with rfl | mem
          · exact later k mem'
          · exact before j mem k (List.mem_cons_of_mem _ mem')) sorted
      refine ⟨answer, ?_, iff.trans ?_⟩
      · simp only [fitsAll, inserted, known, ran, inTime, if_false, bind, Except.bind]
      · rw [List.forall_mem_cons]
        exact ⟨fun all => ⟨completion_due_le complete later (completes.1 (Int.not_lt.1 late)) all,
          all⟩, fun all => all.2⟩

/-- The overload rule finds out whether there is an overload. -/
theorem isOverloadFree_eq : s.isOverloadFree = .ok (decide ¬ s.toTasks.Overloaded) := by
  have mem (i : Fin n) : i ∈ s.orders.byEndMax :=
    derived.complete.byEndMax.mem_iff.2 (List.mem_finRange i)
  obtain ⟨answer, ran, iff⟩ := exists_fitsAll derived roomy s.holds_reset
    (fun j => .inr (mem j)) (by simp) derived.byEndMax
  rw [isOverloadFree, ran]
  congr 1
  rw [Bool.eq_iff_iff, iff, decide_eq_true_iff, Tasks.overloaded_iff]
  push Not
  exact ⟨fun all i => all i (mem i), fun all i _ => all i⟩

/-! ## Detectable precedences -/

/-- The start of one task is raised. -/
theorem exists_raise_cons {i : Fin n} {f : Front n} {T : Finset (Fin n)} (opened : s.Opened f T)
    (before : ∀ j ∈ T, s.startMax.get j < s.endMin.get i) (starts : Vector Int n)
    (rest : List (Fin n)) : ∃ f' next, s.raise f starts (i :: rest) = s.raise f' next rest ∧
      s.Opened f' (s.toTasks.before (s.endMin.get i)) ∧
        ∀ k, next.get k = if k = i then s.toTasks.raisedStart i else starts.get k := by
  obtain ⟨f', completion, advanced, opened', without, completes⟩ :=
    opened.exists_advance derived roomy (s.endMin.get i) before i
  have floor : Width.w64.least / 2 ≤ s.startMin.get i := by
    have := roomy.le_startMin i
    simp only [Width.least, Width.greatest] at *
    omega
  rw [derived.endMin] at completes
  have start : max (s.startMin.get i) completion = s.toTasks.raisedStart i := by
    refine Int.le_antisymm (Int.max_le.2 ⟨s.toTasks.startMin_le_raisedStart i, ?_⟩) ?_
    · refine (completes _ (Int.le_trans floor (s.toTasks.startMin_le_raisedStart i))).2 ?_
      exact (Tasks.raisedStart_le_iff.1 (Int.le_refl _)).2
    · refine Tasks.raisedStart_le_iff.2 ⟨Int.le_max_left .., ?_⟩
      exact (completes _ (Int.le_trans floor (Int.le_max_left ..))).1 (Int.le_max_right ..)
  refine ⟨f', Vector.set starts i (max (s.startMin.get i) completion) i.isLt, ?_, opened',
    fun k => ?_⟩
  · have advanced : s.advance f s.endMin[i] = .ok f' := advanced
    simp only [Sweep.raise, advanced, without, bind, Except.bind]
    rfl
  · rw [get_set, start]
    simp only [eq_comm]

theorem exists_raise {rest : List (Fin n)} {f : Front n} {starts : Vector Int n}
    {T : Finset (Fin n)} (opened : s.Opened f T)
    (before : ∀ j ∈ T, ∀ i ∈ rest, s.startMax.get j < s.endMin.get i)
    (sorted : rest.Pairwise fun i j => s.endMin.get i ≤ s.endMin.get j) :
    ∃ starts', s.raise f starts rest = .ok starts' ∧
      ∀ i, starts'.get i = if i ∈ rest then s.toTasks.raisedStart i else starts.get i := by
  induction rest generalizing f starts T with
  | nil => exact ⟨starts, rfl, by simp⟩
  | cons i rest ih =>
    obtain ⟨later, sorted⟩ := List.pairwise_cons.1 sorted
    obtain ⟨f', next, step, opened', each⟩ := exists_raise_cons derived roomy opened
      (fun j mem => before j mem i List.mem_cons_self) starts rest
    obtain ⟨starts', ran, each'⟩ :=
      @ih f' next _ opened' (startMax_lt_of_mem_before derived later) sorted
    refine ⟨starts', step.trans ran, fun k => ?_⟩
    rw [each' k, each k]
    by_cases same : k = i
    · subst same
      simp
    · simp [same]

/-- The sweep for detectable precedences raises all starts. -/
theorem raisedStarts_eq : s.raisedStarts = .ok s.toTasks.raised.startMin := by
  have mem (i : Fin n) : i ∈ s.orders.byEndMin :=
    derived.complete.byEndMin.mem_iff.2 (List.mem_finRange i)
  obtain ⟨starts, ran, each⟩ := @exists_raise _ _ derived roomy _ _ s.startMin _
    (opened_front derived) (by simp) derived.byEndMin
  rw [raisedStarts, ran]
  congr 1
  refine eq_of_get fun i => ?_
  rw [each i, if_pos (mem i), Tasks.get_raised]

/-! ## Tasks that are not last -/

omit roomy in
/-- If the rule asks for it, an end is lowered to the latest start of the last task that was let in,
which has the greatest one of them all. -/
theorem Opened.loweredEnd_eq {i l : Fin n} {f : Front n}
    (h : s.Opened f (s.toTasks.before (s.endMax.get i))) (last : f.last = some l)
    (late : (s.toTasks.latestStart i : WithBot Int) <
      s.toTasks.earliestCompletion ((s.toTasks.before (s.endMax.get i)).erase i)) :
    s.toTasks.loweredEnd i = s.startMax.get l := by
  have before := h.last_mem l last
  rw [Tasks.mem_before] at before
  refine (Tasks.isGreatest_loweredEnd late).unique ⟨⟨l, (derived.startMax l).symm, ?_⟩, ?_⟩
  · rw [derived.startMax]
    exact before
  · rintro _ ⟨j, rfl, lt⟩
    rw [Tasks.latestStart, ← derived.startMax]
    exact h.last l last j (Tasks.mem_before.2 lt)

/-- The end of one task is lowered, or stays because the rule does not ask for it. -/
theorem exists_lower_cons {i : Fin n} {f : Front n} {ends : Vector Int n} {T : Finset (Fin n)}
    (opened : s.Opened f T) (before : ∀ j ∈ T, s.startMax.get j < s.endMax.get i)
    (here : ends.get i = s.endMax.get i) (rest : List (Fin n)) :
    ∃ f' next, s.lower f ends (i :: rest) = s.lower f' next rest ∧
      s.Opened f' (s.toTasks.before (s.endMax.get i)) ∧
        ∀ k, next.get k = if k = i then s.toTasks.loweredEnd i else ends.get k := by
  obtain ⟨f', completion, advanced, opened', without, completes⟩ :=
    opened.exists_advance derived roomy (s.endMax.get i) before i
  have completes := completes (s.startMax.get i) (by
    have := roomy.le_endMax i
    have := roomy.duration_le i
    rw [derived.startMax]
    simp only [Width.least, Width.greatest] at *
    omega)
  rw [show (s.startMax.get i : WithBot Int) = s.toTasks.latestStart i by
    rw [derived.startMax, Tasks.latestStart]] at completes
  have stays (inTime : s.toTasks.earliestCompletion
      ((s.toTasks.before (s.endMax.get i)).erase i) ≤ s.toTasks.latestStart i) (k : Fin n) :
      ends.get k = if k = i then s.toTasks.loweredEnd i else ends.get k := by
    split
    · rename_i same
      rw [same, here, Tasks.loweredEnd_eq_endMax inTime]
    · rfl
  have advanced : s.advance f s.endMax[i] = .ok f' := advanced
  simp only [Sweep.lower, advanced, without, bind, Except.bind]
  cases last : f'.last with
  | none =>
    refine ⟨f', ends, rfl, opened', stays ?_⟩
    rw [opened'.none last, erase_empty]
    exact Tasks.earliestCompletion_le.2 fun O subset some =>
      absurd (some.mono subset) not_nonempty_empty
  | some l =>
    by_cases late : completion > s.startMax[i]
    · refine ⟨f', Vector.set ends i (min (ends.get i) (s.startMax.get l)) i.isLt, ?_, opened',
        fun k => ?_⟩
      · simp only [late, if_true]
        rfl
      · have late := not_le.1 fun inTime => Int.not_le.2 late (completes.2 inTime)
        have lowest := opened'.loweredEnd_eq derived last late
        have least : min (s.endMax.get i) (s.startMax.get l) = s.toTasks.loweredEnd i := by
          rw [← lowest]
          exact Int.min_eq_right (s.toTasks.loweredEnd_le i)
        rw [get_set, here, least]
        simp only [eq_comm]
    · refine ⟨f', ends, by simp only [late, if_false], opened', stays (completes.1 ?_)⟩
      exact Int.not_lt.1 late

theorem exists_lower {rest : List (Fin n)} {f : Front n} {ends : Vector Int n}
    {T : Finset (Fin n)} (opened : s.Opened f T)
    (before : ∀ j ∈ T, ∀ i ∈ rest, s.startMax.get j < s.endMax.get i)
    (sorted : rest.Pairwise fun i j => s.endMax.get i ≤ s.endMax.get j) (nodup : rest.Nodup)
    (same : ∀ i ∈ rest, ends.get i = s.endMax.get i) :
    ∃ ends', s.lower f ends rest = .ok ends' ∧
      ∀ i, ends'.get i = if i ∈ rest then s.toTasks.loweredEnd i else ends.get i := by
  induction rest generalizing f ends T with
  | nil => exact ⟨ends, rfl, by simp⟩
  | cons i rest ih =>
    obtain ⟨later, sorted⟩ := List.pairwise_cons.1 sorted
    obtain ⟨fresh, nodup⟩ := List.nodup_cons.1 nodup
    obtain ⟨here, same⟩ := List.forall_mem_cons.1 same
    obtain ⟨f', next, step, opened', each⟩ := exists_lower_cons derived roomy opened
      (fun j mem => before j mem i List.mem_cons_self) here rest
    obtain ⟨ends', ran, each'⟩ := ih opened' (startMax_lt_of_mem_before derived later) sorted nodup
      fun k mem => by rw [each k, if_neg (ne_of_mem_of_not_mem mem fresh), same k mem]
    refine ⟨ends', step.trans ran, fun k => ?_⟩
    rw [each' k, each k]
    by_cases same : k = i
    · subst same
      simp
    · simp [same]

/-- The sweep for the not-last rule lowers all ends. -/
theorem loweredEnds_eq : s.loweredEnds = .ok s.toTasks.lowered.endMax := by
  have perm := derived.complete.byEndMax
  have nodup : s.orders.byEndMax.Nodup := perm.nodup_iff.2 (List.nodup_finRange n)
  obtain ⟨ends, ran, each⟩ := exists_lower derived roomy (opened_front derived) (by simp)
    derived.byEndMax nodup fun i _ => (rfl : s.endMax.get i = s.endMax.get i)
  rw [loweredEnds, ran]
  congr 1
  refine eq_of_get fun i => ?_
  rw [each i, if_pos (perm.mem_iff.2 (List.mem_finRange i)), Tasks.get_lowered]

end Rules

end Sweep

namespace Tasks

variable {n : Nat} {t : Tasks n} {orders : Orders n}

/-! ## One round -/

theorem raised_eq_self_iff : t.raised = t ↔ t.raised.startMin = t.startMin := by
  refine ⟨fun same => by rw [same], fun same => ?_⟩
  rw [show t.raised = { t with startMin := t.raised.startMin } from rfl, same]

/-- A round changes the tasks exactly if it moves a start, or then an end. -/
theorem round_ne_self_iff :
    t.round ≠ t ↔ t.raised.startMin ≠ t.startMin ∨ t.round.endMax ≠ t.endMax := by
  rw [← not_and_or, not_iff_not]
  constructor
  · intro same
    exact ⟨show t.round.startMin = t.startMin by rw [same], by rw [same]⟩
  · rintro ⟨starts, ends⟩
    rw [show t.round = { t.raised with endMax := t.round.endMax } from rfl, ends,
      raised_eq_self_iff.2 starts]

/-- A round without an overload: a sweep for the given tasks, one for those of raised starts, and
another round if some bound has moved. -/
theorem exists_sweeps (h : t.Roomy) (complete : orders.Complete) (free : ¬ t.Overloaded) :
    ∃ s : Sweep n, s.toTasks = t.raised ∧ s.Derived ∧ ∀ rounds changed,
      filterLoop (rounds + 1) changed orders t =
        if t.round = t then .ok (if changed then .changed else .unchanged, t)
        else filterLoop rounds true s.orders t.round := by
  obtain ⟨s, opened, rfl, derived⟩ := Sweep.exists_ofTasks h.fitting complete
  have checked := Sweep.isOverloadFree_eq derived h
  have raised := Sweep.raisedStarts_eq derived h
  -- The second sweep is made anew only if some start was raised.
  obtain ⟨s', opened', tasks, derived'⟩ : ∃ s', (if s.toTasks.raised.startMin ≠ s.startMin then
      Sweep.ofTasks s.toTasks.raised s.orders else .ok s) = .ok s' ∧
        s'.toTasks = s.toTasks.raised ∧ s'.Derived := by
    by_cases same : s.toTasks.raised.startMin = s.startMin
    · exact ⟨s, by simp [same], (raised_eq_self_iff.2 same).symm, derived⟩
    · obtain ⟨s', opened', tasks, derived'⟩ :=
        Sweep.exists_ofTasks (h.raised free).fitting derived.complete
      exact ⟨s', by simp [same, opened'], tasks, derived'⟩
  have lowered := Sweep.loweredEnds_eq derived' (tasks ▸ h.raised free)
  rw [show s'.toTasks.lowered.endMax = s.toTasks.round.endMax by rw [tasks]; rfl] at lowered
  have next :
      ({ s'.toTasks with endMax := s.toTasks.round.endMax } : Tasks n) = s.toTasks.round := by
    rw [tasks]
    rfl
  have ends : s'.endMax = s.endMax := by
    rw [show s'.endMax = s'.toTasks.endMax from rfl, tasks]
    rfl
  refine ⟨s', tasks, derived', fun rounds changed => ?_⟩
  rw [filterLoop, opened]
  simp only [checked, free, not_false_eq_true, decide_true, Bool.not_true, Bool.false_eq_true,
    if_false, raised, bind, Except.bind]
  split at opened'
  · rename_i moved
    rw [if_neg (round_ne_self_iff.2 (.inl moved))]
    simp only [decide_eq_true moved, if_true, Bool.true_or, lowered, next,
      show Sweep.ofTasks { s.toTasks with startMin := s.toTasks.raised.startMin } s.orders = .ok s'
        from opened']
  · rename_i still
    cases opened'
    simp only [still, decide_false, Bool.false_eq_true, if_false, Bool.false_or, lowered, next,
      pure, Except.pure, decide_eq_true_eq]
    by_cases moved : s.toTasks.round.endMax ≠ s.endMax
    · rw [if_pos moved, if_neg (round_ne_self_iff.2 (.inr moved))]
    · have same : s.toTasks.round = s.toTasks := by
        by_contra changes
        exact (round_ne_self_iff.1 changes).elim still moved
      rw [if_neg moved, if_pos same, same]

/-- A round of the filter: it stops at an overload, or goes on if some bound has moved. -/
theorem exists_filterLoop_eq (h : t.Roomy) (complete : orders.Complete) :
    ∃ orders' : Orders n, orders'.Complete ∧ ∀ rounds changed,
      filterLoop (rounds + 1) changed orders t =
        if t.Overloaded then .ok (.infeasible, t)
        else if t.round = t then .ok (if changed then .changed else .unchanged, t)
        else filterLoop rounds true orders' t.round := by
  by_cases overload : t.Overloaded
  · obtain ⟨s, opened, rfl, derived⟩ := Sweep.exists_ofTasks h.fitting complete
    refine ⟨orders, complete, fun rounds changed => ?_⟩
    rw [filterLoop, opened, if_pos overload]
    simp only [Sweep.isOverloadFree_eq derived h, overload, bind, Except.bind]
    rfl
  · obtain ⟨s, -, derived, ran⟩ := exists_sweeps h complete overload
    refine ⟨s.orders, derived.complete, fun rounds changed => ?_⟩
    rw [ran, if_neg overload]

end Tasks

namespace Sweep

variable {n : Nat} {t : Tasks n} {orders : Orders n}

/-- The three rules compute what they say about sets of tasks. The overload rule refuses the tasks
exactly if some of them need more time than there is from the first of their earliest starts to the
last of their latest ends. Detectable precedences raise every start to the earliest completion of
the other tasks whose latest start is before the earliest end of the task. The not-last rule lowers
an end to the greatest latest start before it, if the other tasks whose latest start is before it
cannot be completed by the latest start of the task. Another round follows exactly if the starts,
or then the ends, have moved. -/
theorem computes_rules (h : t.Admissible) (complete : orders.Complete) :
    ∃ s free starts ends, Sweep.ofTasks t orders = .ok s ∧ s.isOverloadFree = .ok free ∧
      s.raisedStarts = .ok starts ∧ s.loweredEnds = .ok ends ∧
      (free = false ↔ ∃ O : Finset (Fin n), ∃ some : O.Nonempty,
        O.sup' some t.endMax.get < O.inf' some t.startMin.get + ∑ i ∈ O, t.duration.get i) ∧
      (∀ i, (starts.get i : WithBot Int) = max (t.startMin.get i : WithBot Int)
        (t.earliestCompletion {j | j ≠ i ∧ t.latestStart j < t.earliestEnd i})) ∧
      (∀ i, if (t.latestStart i : WithBot Int) <
          t.earliestCompletion {j | j ≠ i ∧ t.latestStart j < t.endMax.get i}
        then IsGreatest {time | ∃ j, t.latestStart j = time ∧ time < t.endMax.get i} (ends.get i)
        else ends.get i = t.endMax.get i) ∧
      (free = true → ∃ (s' : Sweep n) (ends' : Vector Int n),
        s'.toTasks = { t with startMin := starts } ∧ s'.orders.Complete ∧
        s'.loweredEnds = .ok ends' ∧ ∀ rounds changed,
          Tasks.filterLoop (rounds + 1) changed orders t =
            if (∃ i, starts.get i ≠ t.startMin.get i) ∨ ∃ i, ends'.get i ≠ t.endMax.get i then
              Tasks.filterLoop rounds true s'.orders ⟨starts, t.duration, ends'⟩
            else .ok (if changed then .changed else .unchanged, t)) := by
  obtain ⟨s, opened, rfl, derived⟩ := Sweep.exists_ofTasks h.roomy.fitting complete
  have others (limit : Int) (i : Fin n) :
      (univ.filter fun j => j ≠ i ∧ s.toTasks.latestStart j < limit) =
        (s.toTasks.before limit).erase i := by
    ext j
    rw [Tasks.mem_before_erase, mem_filter, and_iff_right (mem_univ j)]
  refine ⟨s, _, _, _, opened, isOverloadFree_eq derived h.roomy, raisedStarts_eq derived h.roomy,
    loweredEnds_eq derived h.roomy, ?_, fun i => ?_, fun i => ?_, fun free => ?_⟩
  · rw [decide_eq_false_iff_not, Classical.not_not]
    rfl
  · rw [Tasks.get_raised, Tasks.coe_raisedStart, others]
  · rw [Tasks.get_lowered, others]
    split
    · exact Tasks.isGreatest_loweredEnd ‹_›
    · exact Tasks.loweredEnd_eq_endMax (not_lt.1 ‹_›)
  · have free := of_decide_eq_true free
    obtain ⟨s', tasks, derived', ran⟩ := Tasks.exists_sweeps h.roomy complete free
    refine ⟨s', s.toTasks.round.endMax, tasks, derived'.complete, ?_, fun rounds changed => ?_⟩
    · rw [loweredEnds_eq derived' (tasks ▸ h.roomy.raised free), tasks]
      rfl
    · rw [ran]
      have moved := (Tasks.round_ne_self_iff (t := s.toTasks)).trans
        (or_congr ne_iff_exists_get_ne ne_iff_exists_get_ne)
      by_cases same : s.toTasks.round = s.toTasks
      · rw [if_pos same, if_neg (fun moves => moved.2 moves same)]
      · rw [if_neg same, if_pos (moved.1 same)]
        rfl

/-- Two tasks of length `5` have to follow each other from `1` to `12`, so that the first task, which
has to end by `11`, cannot come last: it has to end by its own latest start, since the other two have
to start earlier still. -/
def threeTasks : Tasks 3 := ⟨#v[0, 1, 1], #v[2, 5, 5], #v[11, 12, 12]⟩

theorem admissible_threeTasks : threeTasks.Admissible where
  room := by decide
  duration_nonneg := by decide
  sum_le := by decide
  le_startMin := by decide
  startMin_le := by decide
  le_endMax := by decide
  endMax_le := by decide

theorem computes_rules_three : threeTasks.Admissible ∧ (Orders.initial 3).Complete ∧
    ∃ s, Sweep.ofTasks threeTasks (.initial 3) = .ok s ∧ s.isOverloadFree = .ok true ∧
      s.raisedStarts = .ok #v[0, 1, 1] ∧ s.loweredEnds = .ok #v[9, 12, 12] ∧
      (¬ ∃ O : Finset (Fin 3), ∃ some : O.Nonempty, O.sup' some threeTasks.endMax.get <
        O.inf' some threeTasks.startMin.get + ∑ i ∈ O, threeTasks.duration.get i) ∧
      (threeTasks.latestStart 0 : WithBot Int) < threeTasks.earliestCompletion
        {j | j ≠ 0 ∧ threeTasks.latestStart j < threeTasks.endMax.get 0} ∧
      IsGreatest
        {time | ∃ j, threeTasks.latestStart j = time ∧ time < threeTasks.endMax.get 0} 9 := by
  have swept : (do
      let s ← Sweep.ofTasks threeTasks (.initial 3)
      return (← s.isOverloadFree, ← s.raisedStarts, ← s.loweredEnds)) =
        (.ok (true, #v[0, 1, 1], #v[9, 12, 12]) :
          Except Fault (Bool × Vector Int 3 × Vector Int 3)) := by cbv
  obtain ⟨s, free, starts, ends, opened, checked, raised, lowered, overload, -, last, -⟩ :=
    computes_rules admissible_threeTasks (Orders.complete_initial 3)
  rw [opened] at swept
  simp only [checked, raised, lowered, bind, Except.bind, pure, Except.pure, Except.ok.injEq,
    Prod.mk.injEq] at swept
  obtain ⟨rfl, rfl, rfl⟩ := swept
  refine ⟨admissible_threeTasks, Orders.complete_initial 3, s, opened, checked, raised, lowered,
    fun late => Bool.noConfusion (overload.2 late), ?_⟩
  have first := last 0
  split at first
  · exact ⟨‹_›, first⟩
  · exact absurd first (by decide)

end Sweep

end Scheduling
