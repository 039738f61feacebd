import Mathlib.Data.Finset.Max
import Mathlib.Logic.Function.Basic
import Mathlib.Order.Bounds.Basic
import Mathlib.Tactic.MkIffOfInductiveProp
import Scheduling.Proofs.Disjunctive.Completion

/-!
# Tasks by rank

A tree is asked to put tasks into its set and to take them out again, in any order. What it holds
afterwards is a table of tasks by rank: a task that comes takes the place of the one of its rank.
As long as the durations in the table are not too long and no task completes too late or too early,
the tree answers every request, and its completion is the greatest of the times at which some task
and all those of a greater rank can be completed one after the other.

Results:
* `CompletionTree.create_eq_ok_iff`: the numbers of tasks for which there is a tree.
* `CompletionTree.Keeps`: a tree keeps a table; kept by `CompletionTree.Keeps.perform`.
* `CompletionTree.Keeps.completion_eq_least`, `CompletionTree.Keeps.isGreatest_completion`: the
  completion of a tree that keeps a table.
* `CompletionTree.completion_of_requests`: every sequence of requests is answered in this way.
-/

namespace Scheduling

open Finset

namespace CompletionTree

/-- What a tree can be asked to do. -/
inductive Request
  | insert (rank : Nat) (task : Summary)
  | remove (rank : Nat)
  deriving DecidableEq, Repr

/-- The rank of the leaf that changes. -/
def Request.rank : Request → Nat
  | insert rank _ => rank
  | remove rank => rank

/-- The task of its rank afterwards, if there is one. -/
def Request.task : Request → Option Summary
  | insert _ task => some task
  | remove _ => none

/-- What the leaf of its rank holds afterwards. -/
def Request.written (r : Request) : Summary := r.task.getD .none

/-- The tree after a request. -/
def perform (t : CompletionTree) : Request → Except Fault CompletionTree
  | .insert rank task => t.insert rank task.completion task.duration
  | .remove rank => t.remove rank

/-- A task that is taken out leaves what a leaf holds at first. -/
theorem perform_eq (t : CompletionTree) (r : Request) :
    t.perform r = t.insert r.rank r.written.completion r.written.duration := by
  cases r <;> rfl

end CompletionTree

/-- The tasks of a set, by rank. -/
abbrev RankedTasks := Nat → Option Summary

namespace RankedTasks

/-- No tasks. -/
def empty : RankedTasks := fun _ => none

/-- The tasks after a request. -/
def after (T : RankedTasks) (r : CompletionTree.Request) : RankedTasks :=
  Function.update T r.rank r.task

/-- What the leaf of a rank holds. -/
def leaf (T : RankedTasks) (rank : Nat) : Summary := (T rank).getD .none

/-- The duration of the task of a rank, if there is one. -/
def duration (T : RankedTasks) (rank : Nat) : Int := (T.leaf rank).duration

/-- The time at which the task of a rank and all those of a greater rank are completed, if the task
is completed as early as on its own and the others follow without a gap. -/
def completionFrom (n : Nat) (T : RankedTasks) (rank : Nat) : Int :=
  (T.leaf rank).completion + ∑ r ∈ Ioo rank n, T.duration r

/-- These times, for all tasks. -/
def Completions (n : Nat) (T : RankedTasks) : Set Int :=
  {x | ∃ rank task, T rank = some task ∧ x = task.completion + ∑ r ∈ Ioo rank n, T.duration r}

/-- No duration is negative, they sum up to at most an eighth of a word, and the completions of the
tasks on their own take at most half of one. -/
@[mk_iff]
structure Moderate (n : Nat) (T : RankedTasks) : Prop where
  nonneg : ∀ rank < n, ∀ task ∈ T rank, 0 ≤ task.duration
  total : ∑ rank ∈ range n, T.duration rank ≤ Width.w64.greatest / 8
  completion : ∀ rank < n, ∀ task ∈ T rank, |task.completion| ≤ Width.w64.greatest / 2

instance (n : Nat) (T : RankedTasks) : Decidable (T.Moderate n) :=
  decidable_of_iff _ (moderate_iff n T).symm

variable {n : Nat} {T : RankedTasks}

theorem leaf_of_eq_some {rank : Nat} {task : Summary} (here : T rank = some task) :
    T.leaf rank = task := by
  rw [leaf, here, Option.getD_some]

theorem leaf_of_eq_none {rank : Nat} (absent : T rank = none) : T.leaf rank = .none := by
  rw [leaf, absent, Option.getD_none]

theorem duration_of_eq_none {rank : Nat} (absent : T rank = none) : T.duration rank = 0 := by
  rw [duration, leaf_of_eq_none absent, Summary.none]

/-- The leaves of the other ranks stay. -/
theorem leaf_after (T : RankedTasks) (r : CompletionTree.Request) :
    (T.after r).leaf = fun rank => if rank = r.rank then r.written else T.leaf rank := by
  funext rank
  simp only [leaf, after, Function.update_apply, CompletionTree.Request.written]
  split <;> rfl

/-- The ranks of all tasks are below `n`. -/
def Within (n : Nat) (T : RankedTasks) : Prop := ∀ rank, n ≤ rank → T rank = none

namespace Within

variable (within : T.Within n)
include within

theorem lt_of_eq_some {rank : Nat} {task : Summary} (here : T rank = some task) : rank < n := by
  by_contra beyond
  rw [within rank (Nat.le_of_not_lt beyond)] at here
  cases here

theorem after {r : CompletionTree.Request} (lt : r.rank < n) : (T.after r).Within n := by
  intro rank le
  have differs : rank ≠ r.rank := by omega
  rw [RankedTasks.after, Function.update_of_ne differs, within rank le]

theorem duration_nonneg (moderate : T.Moderate n) (rank : Nat) : 0 ≤ T.duration rank := by
  cases here : T rank with
  | none => rw [duration_of_eq_none here]
  | some task =>
    rw [duration, leaf_of_eq_some here]
    exact moderate.nonneg rank (within.lt_of_eq_some here) task here

/-- The leaves beyond the tasks add nothing to a sum. -/
theorem sumWhere_leaf {depth : Nat} (le : n ≤ 2 ^ depth) (p : Nat → Prop) [DecidablePred p] :
    Node.sumWhere depth T.leaf p = ∑ rank ∈ range n with p rank, T.duration rank := by
  rw [Node.sumWhere, sum_filter]
  refine (sum_subset (range_subset_range.2 le) fun rank _ beyond => ?_).symm
  have absent := within rank (Nat.le_of_not_lt fun lt => beyond (mem_range.2 lt))
  show (if p rank then T.duration rank else 0) = 0
  rw [duration_of_eq_none absent, ite_self]

theorem sumWhere_later {depth : Nat} (le : n ≤ 2 ^ depth) (rank : Nat) :
    Node.sumWhere depth T.leaf (fun r => rank < r) = ∑ r ∈ Ioo rank n, T.duration r := by
  rw [within.sumWhere_leaf le]
  congr 1
  ext r
  simp [and_comm]

theorem sumWhere_all {depth : Nat} (le : n ≤ 2 ^ depth) :
    Node.sumWhere depth T.leaf (fun _ => True) = ∑ rank ∈ range n, T.duration rank := by
  rw [within.sumWhere_leaf le, filter_true]

theorem sum_later_le (moderate : T.Moderate n) (rank : Nat) :
    ∑ r ∈ Ioo rank n, T.duration r ≤ Width.w64.greatest / 8 := by
  refine Int.le_trans (sum_le_sum_of_subset_of_nonneg (fun r mem => ?_) fun r _ _ => ?_)
    moderate.total
  · exact mem_range.2 (mem_Ioo.1 mem).2
  · exact within.duration_nonneg moderate r

/-- The tasks from a rank on are completed later than an empty leaf and all durations come to, and at
a time that is a word. -/
theorem completion_bounds (moderate : T.Moderate n) {rank : Nat} {task : Summary}
    (filled : T rank = some task) :
    Width.w64.least + Width.w64.greatest / 8 ≤ T.completionFrom n rank ∧
      T.completionFrom n rank ≤ Width.w64.greatest := by
  have own := moderate.completion rank (within.lt_of_eq_some filled) task filled
  have rest : 0 ≤ ∑ r ∈ Ioo rank n, T.duration r :=
    sum_nonneg fun r _ => within.duration_nonneg moderate r
  have short := within.sum_later_le moderate rank
  rw [completionFrom, leaf_of_eq_some filled]
  rw [abs_le] at own
  simp only [Width.least, Width.greatest] at *
  omega

/-- Among finitely many tasks there is one whose completion is the greatest. -/
theorem exists_greatest (inhabited : ∃ rank task, T rank = some task) :
    ∃ rank task, T rank = some task ∧
      ∀ other task, T other = some task → T.completionFrom n other ≤ T.completionFrom n rank := by
  have mem {rank : Nat} {task : Summary} (filled : T rank = some task) :
      rank ∈ (range n).filter fun r => (T r).isSome := by
    simp [filled, within.lt_of_eq_some filled]
  obtain ⟨rank, task, filled⟩ := inhabited
  obtain ⟨rank, listed, greatest⟩ := exists_max_image _ (T.completionFrom n) ⟨rank, mem filled⟩
  obtain ⟨task, filled⟩ := Option.isSome_iff_exists.1 (mem_filter.1 listed).2
  exact ⟨rank, task, filled, fun other task there => greatest other (mem there)⟩

end Within

end RankedTasks

namespace Node

/-- Where the leaves are as stated, every inner node is the merge of its halves. -/
theorem Stores.merged {depth : Nat} {t : Node} {f : Nat → Summary} (h : Stores depth t f) :
    t.Merged := by
  induction depth generalizing t f with
  | zero =>
    cases t with
    | leaf => trivial
    | inner => exact h.elim
  | succ depth ih =>
    cases t with
    | leaf => trivial
    | inner s left right =>
      obtain ⟨merged, low, high⟩ := h
      exact ⟨merged, ih low, ih high⟩

end Node

namespace CompletionTree

/-- Memory has room for a tree of `2 ^ 58` tasks, and for no greater one. -/
theorem create_eq_ok_iff {n : Nat} {t : CompletionTree} :
    create n = .ok t ↔ n ≤ 2 ^ 58 ∧ t = reset n := by
  have pos : 0 < 2 ^ depthFor n := Nat.two_pow_pos _
  have fits : n ≤ 2 ^ 58 ↔ 2 ^ depthFor n ≤ 2 ^ 58 := by
    rw [← depthFor_le_iff, Nat.pow_le_pow_iff_right (by decide)]
  have size : (2 * 2 ^ depthFor n - 1) * 16 ≤ Memory.greatestSize ↔ 2 ^ depthFor n ≤ 2 ^ 58 := by
    unfold Memory.greatestSize
    omega
  rw [fits, ← size, ← Memory.reserve_eq_ok_iff]
  simp only [create, nodesFor, bind_eq_ok_iff, Memory.mulIndex_eq_ok_iff, Nat.pow_eq, pure,
    Except.pure, Except.ok.injEq]
  constructor
  · rintro ⟨_, ⟨_, ⟨-, rfl⟩, rfl⟩, ⟨⟩, reserved, rfl⟩
    exact ⟨reserved, rfl⟩
  · rintro ⟨reserved, rfl⟩
    have few := size.1 (Memory.reserve_eq_ok_iff.1 reserved)
    exact ⟨_, ⟨_, ⟨by unfold Memory.indices; omega, rfl⟩, rfl⟩, (), reserved, rfl⟩

/-- The tree keeps the tasks: its leaves hold them. -/
structure Keeps (t : CompletionTree) (n : Nat) (T : RankedTasks) : Prop where
  depth : t.depth = depthFor n
  stores : t.Stores T.leaf
  within : T.Within n

theorem keeps_reset (n : Nat) : (reset n).Keeps n .empty where
  depth := rfl
  stores := stores_reset n
  within _ _ := rfl

namespace Keeps

variable {t : CompletionTree} {n : Nat} {T : RankedTasks} (h : t.Keeps n T)
include h

theorem le_two_pow_depth : n ≤ 2 ^ t.depth := by
  rw [h.depth]
  exact le_two_pow_depthFor n

/-- A request is answered if the tasks are moderate then. -/
theorem perform (room : n ≤ 2 ^ 58) {r : Request} (lt : r.rank < n)
    (moderate : (T.after r).Moderate n) : ∃ u, t.perform r = .ok u ∧ u.Keeps n (T.after r) := by
  have within := h.within.after lt
  have shallow : t.depth ≤ 63 := by
    rw [h.depth]
    exact depthFor_le (Nat.le_trans room (by decide))
  have nonneg := within.duration_nonneg moderate
  have total : Node.sumWhere t.depth (T.after r).leaf (fun _ => True) ≤ Width.w64.greatest := by
    rw [within.sumWhere_all h.le_two_pow_depth]
    exact Int.le_trans moderate.total (by decide)
  simp only [RankedTasks.duration, RankedTasks.leaf_after] at nonneg total
  obtain ⟨u, inserted, depth, stores⟩ :=
    exists_insert h.stores (Nat.lt_of_lt_of_le lt h.le_two_pow_depth) shallow nonneg total
  refine ⟨u, (t.perform_eq r).trans inserted, depth.trans h.depth, ?_, within⟩
  rw [RankedTasks.leaf_after]
  exact stores

/-- So is every sequence of requests after each of which the tasks are moderate. -/
theorem performs (room : n ≤ 2 ^ 58) {requests : List Request} (inside : ∀ r ∈ requests, r.rank < n)
    (moderate : ∀ before, before <+: requests → (before.foldl RankedTasks.after T).Moderate n) :
    ∃ u, requests.foldlM CompletionTree.perform t = .ok u ∧
      u.Keeps n (requests.foldl RankedTasks.after T) := by
  induction requests generalizing t T with
  | nil => exact ⟨t, rfl, h⟩
  | cons r rest ih =>
    obtain ⟨t₁, performed, keeps⟩ := h.perform room (inside r List.mem_cons_self)
      (moderate [r] ⟨rest, rfl⟩)
    obtain ⟨u, run, kept⟩ := ih keeps (fun r' mem => inside r' (List.mem_cons_of_mem _ mem))
      fun before ⟨later, split⟩ => moderate (r :: before) ⟨later, by rw [← split]; rfl⟩
    exact ⟨u, by rw [List.foldlM_cons]; exact bind_eq_ok_iff.2 ⟨t₁, performed, run⟩, kept⟩

/-- Without tasks the completion is the least word. -/
theorem completion_eq_least (absent : ∀ rank, T rank = none) :
    t.completion = .ok Width.w64.least := by
  obtain ⟨root, here, stores⟩ := h.stores
  have leaf (rank : Nat) : T.leaf rank = .none := RankedTasks.leaf_of_eq_none (absent rank)
  have nonneg (rank : Nat) : 0 ≤ (T.leaf rank).duration := by rw [leaf]; decide
  have sum (p : Nat → Prop) [DecidablePred p] : Node.sumWhere t.depth T.leaf p = 0 :=
    sum_eq_zero fun rank _ => by rw [leaf, Summary.none, ite_self]
  have upper : root.summary.completion ≤ Width.w64.least :=
    Node.completion_le stores nonneg (by rw [sum, Int.add_zero]) fun rank _ => by
      rw [sum, leaf, Summary.none, Int.add_zero]
  have lower : Width.w64.least ≤ root.summary.completion :=
    Node.le_completion stores nonneg (Nat.two_pow_pos _) (by rw [leaf, Summary.none]) (by decide)
  simp only [completion, here, Int.le_antisymm upper lower]

/-- Otherwise its completion is the greatest of those of the tasks. -/
theorem isGreatest_completion (moderate : T.Moderate n)
    (inhabited : ∃ rank task, T rank = some task) :
    ∃ completion, t.completion = .ok completion ∧ IsGreatest (T.Completions n) completion := by
  obtain ⟨root, here, stores⟩ := h.stores
  refine ⟨root.summary.completion, by simp only [completion, here], ?_⟩
  have nonneg := h.within.duration_nonneg moderate
  obtain ⟨rank, task, filled, greatest⟩ := h.within.exists_greatest inhabited
  obtain ⟨above, below⟩ := h.within.completion_bounds moderate filled
  have upper : root.summary.completion ≤ T.completionFrom n rank := by
    refine Node.completion_le stores nonneg ?_ fun other _ => ?_
    · rw [h.within.sumWhere_all h.le_two_pow_depth]
      exact Int.le_trans (Int.add_le_add_left moderate.total _) above
    · rw [h.within.sumWhere_later h.le_two_pow_depth]
      cases there : T other with
      | some task => exact greatest other task there
      | none =>
        -- An empty leaf holds the least word, which no durations lift up to a task.
        rw [RankedTasks.leaf_of_eq_none there]
        exact Int.le_trans (Int.add_le_add_left (h.within.sum_later_le moderate other) _) above
  have lower : T.completionFrom n rank ≤ root.summary.completion := by
    have inside := Nat.lt_of_lt_of_le (h.within.lt_of_eq_some filled) h.le_two_pow_depth
    refine Node.le_completion_of_le_add stores nonneg inside ?_ below
    rw [h.within.sumWhere_later h.le_two_pow_depth]
    exact Int.le_refl _
  rw [Int.le_antisymm upper lower]
  refine ⟨⟨rank, task, filled, ?_⟩, ?_⟩
  · rw [RankedTasks.completionFrom, RankedTasks.leaf_of_eq_some filled]
  · rintro _ ⟨other, task, there, rfl⟩
    have := greatest other task there
    rwa [RankedTasks.completionFrom, RankedTasks.leaf_of_eq_some there] at this

end Keeps

/-- Take any sequence of requests to a tree for `n` tasks after each of which the tasks of the set
are moderate. All of them are answered. Afterwards the leaves hold the tasks that were put in last,
every inner node is the merge of its halves, and the completion of the tree is the least word if
there are no tasks, and otherwise the greatest of the times at which a task and all those of a
greater rank are completed. -/
theorem completion_of_requests {n : Nat} {t : CompletionTree} (made : create n = .ok t)
    {requests : List Request} (inside : ∀ r ∈ requests, r.rank < n)
    (moderate : ∀ before, before <+: requests →
      (before.foldl RankedTasks.after .empty).Moderate n) :
    ∃ u root completion, requests.foldlM perform t = .ok u ∧ u.root = some root ∧
      u.completion = .ok completion ∧ root.Merged ∧
      let T : RankedTasks := requests.foldl RankedTasks.after .empty
      root.Stores u.depth T.leaf ∧
      ((∀ rank, T rank = none) → completion = Width.w64.least) ∧
      ((∃ rank task, T rank = some task) → IsGreatest (T.Completions n) completion) := by
  obtain ⟨room, rfl⟩ := create_eq_ok_iff.1 made
  obtain ⟨u, run, keeps⟩ := (keeps_reset n).performs room inside moderate
  obtain ⟨root, here, stores⟩ := keeps.stores
  have known : u.completion = .ok root.summary.completion := by simp only [completion, here]
  refine ⟨u, root, root.summary.completion, run, here, known, stores.merged, stores,
    fun absent => ?_, fun inhabited => ?_⟩
  · have least := keeps.completion_eq_least absent
    rw [known] at least
    exact Except.ok.inj least
  · obtain ⟨completion, known', greatest⟩ :=
      keeps.isGreatest_completion (moderate requests (List.prefix_refl _)) inhabited
    rw [known] at known'
    rwa [Except.ok.inj known']

/-- A task is replaced by a later one and taken out again; the two that stay follow each other. -/
theorem completion_of_requests_three :
    create 3 = .ok (reset 3) ∧
      let requests : List Request :=
        [.insert 0 ⟨3, 3⟩, .insert 1 ⟨6, 4⟩, .insert 0 ⟨9, 3⟩, .insert 2 ⟨7, 3⟩, .remove 0]
      (∀ r ∈ requests, r.rank < 3) ∧
      (∀ before, before <+: requests → (before.foldl RankedTasks.after .empty).Moderate 3) ∧
      ∃ u, requests.foldlM perform (reset 3) = .ok u ∧ u.completion = .ok 9 ∧
        IsGreatest ((requests.foldl RankedTasks.after .empty).Completions 3) 9 := by
  have made : create 3 = .ok (reset 3) := by decide
  refine ⟨made, ?_⟩
  intro requests
  have inside : ∀ r ∈ requests, r.rank < 3 := by decide
  have moderate : ∀ before ∈ requests.inits,
      (before.foldl RankedTasks.after .empty).Moderate 3 := by decide
  simp only [List.mem_inits] at moderate
  obtain ⟨u, _, completion, run, -, known, -, -, -, greatest⟩ :=
    completion_of_requests made inside moderate
  have nine : (requests.foldlM perform (reset 3) >>= CompletionTree.completion) = .ok 9 := by decide
  rw [run] at nine
  obtain rfl : completion = 9 := Except.ok.inj (known.symm.trans nine)
  exact ⟨inside, moderate, u, run, known, greatest ⟨1, ⟨6, 4⟩, by decide⟩⟩

end CompletionTree

end Scheduling
