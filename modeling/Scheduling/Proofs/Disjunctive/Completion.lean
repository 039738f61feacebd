import Mathlib.Algebra.BigOperators.Intervals
import Mathlib.Algebra.Order.BigOperators.Group.Finset
import Mathlib.Order.Interval.Finset.Nat
import Scheduling.Proofs.Disjunctive.Overload

/-!
# The time at which a set of tasks can be completed

A tree knows the greatest time that some task of its set and all those of a greater rank need when
they follow each other from the start of that task on.

Results:
* `Node.exists_set`: a leaf can be replaced as long as the durations add up to a word.
* `Node.completion_le`: a bound on the completion of a tree.
* `Sweep.Holds`: a tree holds a set of tasks; kept by `Sweep.exists_insert`, `Sweep.exists_remove`.
* `Sweep.Holds.completion_le`, `Sweep.Holds.le_completion`: bounds on the completion of a set of
  tasks.
-/

namespace Scheduling

open Finset

namespace Node

/-- The sum of the durations in the leaves whose rank has a property. -/
def sumWhere (depth : Nat) (f : Nat → Summary) (p : Nat → Prop) [DecidablePred p] : Int :=
  ∑ rank ∈ range (2 ^ depth), if p rank then (f rank).duration else 0

theorem sumWhere_zero (f : Nat → Summary) (p : Nat → Prop) [DecidablePred p] :
    sumWhere 0 f p = if p 0 then (f 0).duration else 0 := by
  simp [sumWhere]

theorem sumWhere_succ (depth : Nat) (f : Nat → Summary) (p : Nat → Prop) [DecidablePred p] :
    sumWhere (depth + 1) f p = sumWhere depth f p +
      sumWhere depth (fun rank => f (rank + 2 ^ depth)) fun rank => p (rank + 2 ^ depth) := by
  unfold sumWhere
  rw [Nat.pow_succ, Nat.mul_two, sum_range_add]
  simp only [Nat.add_comm (2 ^ depth)]

theorem sumWhere_congr {depth : Nat} {f : Nat → Summary} {p q : Nat → Prop} [DecidablePred p]
    [DecidablePred q] (same : ∀ rank, rank < 2 ^ depth → (p rank ↔ q rank)) :
    sumWhere depth f p = sumWhere depth f q :=
  sum_congr rfl fun rank mem => by simp only [same rank (mem_range.1 mem)]

theorem sumWhere_eq_zero {depth : Nat} {f : Nat → Summary} {p : Nat → Prop} [DecidablePred p]
    (none : ∀ rank, rank < 2 ^ depth → ¬ p rank) : sumWhere depth f p = 0 :=
  sum_eq_zero fun rank mem => if_neg (none rank (mem_range.1 mem))

/-- After a leaf on the left come the others on the left, and all on the right. -/
theorem sumWhere_later_left {depth rank : Nat} (f : Nat → Summary) (lt : rank < 2 ^ depth) :
    sumWhere (depth + 1) f (fun r => rank < r) = sumWhere depth f (fun r => rank < r) +
      sumWhere depth (fun r => f (r + 2 ^ depth)) fun _ => True := by
  rw [sumWhere_succ]
  congr 1
  exact sumWhere_congr fun r _ => by simp; omega

/-- After a leaf on the right come others on the right. -/
theorem sumWhere_later_right (depth rank : Nat) (f : Nat → Summary) :
    sumWhere (depth + 1) f (fun r => rank + 2 ^ depth < r) =
      sumWhere depth (fun r => f (r + 2 ^ depth)) fun r => rank < r := by
  have none : sumWhere depth f (fun r => rank + 2 ^ depth < r) = 0 :=
    sumWhere_eq_zero fun r lt => by omega
  rw [sumWhere_succ, none, Int.zero_add]
  exact sumWhere_congr fun r _ => by omega

theorem sumWhere_nonneg {depth : Nat} {f : Nat → Summary} {p : Nat → Prop} [DecidablePred p]
    (nonneg : ∀ rank, 0 ≤ (f rank).duration) : 0 ≤ sumWhere depth f p :=
  sum_nonneg fun rank _ => by
    split
    · exact nonneg rank
    · exact Int.le_refl 0

/-- The duration of a tree is the sum of those of its leaves. -/
theorem duration_eq {depth : Nat} {t : Node} {f : Nat → Summary} (h : Stores depth t f) :
    t.summary.duration = sumWhere depth f fun _ => True := by
  induction depth generalizing t f with
  | zero =>
    cases t with
    | leaf s => simp [sumWhere_zero, summary, show s = f 0 from h]
    | inner => exact h.elim
  | succ depth ih =>
    cases t with
    | leaf => exact h.elim
    | inner s left right =>
      obtain ⟨merged, low, high⟩ := h
      rw [summary_inner, (le_of_merge merged).1, ih low, ih high, sumWhere_succ]

/-- Two trees can be joined if their durations add up to a word. -/
theorem exists_merge {depth : Nat} {left right : Node} {f g : Nat → Summary}
    (low : Stores depth left f) (high : Stores depth right g) (nonneg : ∀ r, 0 ≤ (f r).duration)
    (nonneg' : ∀ r, 0 ≤ (g r).duration)
    (word : sumWhere depth f (fun _ => True) + sumWhere depth g (fun _ => True) ≤
      Width.w64.greatest) : ∃ s, left.summary.merge right.summary = .ok s := by
  have lowSum : 0 ≤ sumWhere depth f fun _ => True := sumWhere_nonneg nonneg
  have highSum : 0 ≤ sumWhere depth g fun _ => True := sumWhere_nonneg nonneg'
  have holds : Width.w64.Holds (left.summary.duration + right.summary.duration) := by
    rw [duration_eq low, duration_eq high]
    exact ⟨by simp only [Width.least]; omega, word⟩
  have sum := Width.add_eq_ok_iff.2 ⟨holds, rfl⟩
  simp only [Summary.merge, sum, bind, Except.bind, pure, Except.pure]
  exact ⟨_, rfl⟩

/-- A leaf can be replaced if the durations then add up to a word. -/
theorem exists_set {depth rank : Nat} {t : Node} {f : Nat → Summary} {s : Summary}
    (h : Stores depth t f) (lt : rank < 2 ^ depth)
    (nonneg : ∀ r, 0 ≤ (if r = rank then s else f r).duration)
    (word : sumWhere depth (fun r => if r = rank then s else f r) (fun _ => True) ≤
      Width.w64.greatest) : ∃ u, t.set depth rank s = .ok u := by
  induction depth generalizing t f rank with
  | zero =>
    cases t with
    | leaf => exact ⟨_, rfl⟩
    | inner => exact h.elim
  | succ depth ih =>
    cases t with
    | leaf => exact h.elim
    | inner top left right =>
      obtain ⟨-, low, high⟩ := h
      have pow : 2 ^ (depth + 1) = 2 ^ depth + 2 ^ depth := by omega
      have nonneg' (r : Nat) := nonneg (r + 2 ^ depth)
      have lowSum : 0 ≤ sumWhere depth (fun r => if r = rank then s else f r) fun _ => True :=
        sumWhere_nonneg nonneg
      have highSum : 0 ≤ sumWhere depth
          (fun r => if r + 2 ^ depth = rank then s else f (r + 2 ^ depth)) fun _ => True :=
        sumWhere_nonneg nonneg'
      rw [sumWhere_succ] at word
      by_cases first : rank < 2 ^ depth
      · obtain ⟨half, changed⟩ := ih low first nonneg (by omega)
        have kept := stores_set low first changed
        have high := high.congr
          (g := fun r => if r + 2 ^ depth = rank then s else f (r + 2 ^ depth))
          fun r _ => (if_neg (by omega)).symm
        obtain ⟨top', joined⟩ := exists_merge kept high nonneg nonneg' word
        exact ⟨_, by simp [set, Nat.pow_eq, first, changed, joined, bind, Except.bind, pure,
          Except.pure]; rfl⟩
      · obtain ⟨rank, rfl⟩ : ∃ r, rank = r + 2 ^ depth := ⟨rank - 2 ^ depth, by omega⟩
        simp only [Nat.add_right_cancel_iff] at highSum nonneg' word
        obtain ⟨half, changed⟩ := ih high (by omega) nonneg' (by omega)
        have kept := stores_set high (by omega) changed
        have low := low.congr (g := fun r => if r = rank + 2 ^ depth then s else f r)
          fun r _ => (if_neg (by omega)).symm
        obtain ⟨top', joined⟩ := exists_merge low kept nonneg nonneg' word
        exact ⟨_, by simp [set, Nat.pow_eq, changed, joined, bind, Except.bind, pure,
          Except.pure]; rfl⟩

/-- The completion of a tree is at most a bound that no leaf exceeds together with the durations of
the leaves after it. -/
theorem completion_le {depth : Nat} {t : Node} {f : Nat → Summary} {bound : Int}
    (h : Stores depth t f) (nonneg : ∀ rank, 0 ≤ (f rank).duration)
    (floor : Width.w64.least + sumWhere depth f (fun _ => True) ≤ bound)
    (each : ∀ rank, rank < 2 ^ depth →
      (f rank).completion + sumWhere depth f (fun r => rank < r) ≤ bound) :
    t.summary.completion ≤ bound := by
  induction depth generalizing t f bound with
  | zero =>
    cases t with
    | leaf s =>
      have := each 0 (by simp)
      simpa [sumWhere_zero, summary, show s = f 0 from h] using this
    | inner => exact h.elim
  | succ depth ih =>
    cases t with
    | leaf => exact h.elim
    | inner s left right =>
      obtain ⟨merged, low, high⟩ := h
      have pow : 2 ^ (depth + 1) = 2 ^ depth + 2 ^ depth := by omega
      have lowSum : 0 ≤ sumWhere depth f fun _ => True := sumWhere_nonneg nonneg
      have rightSum := duration_eq high
      rw [sumWhere_succ] at floor
      have first : left.summary.completion ≤ bound - right.summary.duration := by
        refine ih low nonneg (by omega) fun rank lt => ?_
        have := each rank (by omega)
        rw [sumWhere_later_left f lt] at this
        omega
      have second : right.summary.completion ≤ bound := by
        refine ih high (fun rank => nonneg _) (by omega) fun rank lt => ?_
        have := each (rank + 2 ^ depth) (by omega)
        rwa [sumWhere_later_right] at this
      obtain ⟨duration, -, rest⟩ := bind_eq_ok_iff.1 merged
      cases rest
      have : 0 ≤ sumWhere depth (fun r => f (r + 2 ^ depth)) fun _ => True :=
        sumWhere_nonneg fun rank => nonneg (rank + 2 ^ depth)
      simp only [summary_inner, Width.saturate]
      omega

/-- The completion of a tree is at least that of any leaf, together with the durations of the leaves
after it. -/
theorem le_completion_of_le_add {depth : Nat} {t : Node} {f : Nat → Summary} {rank : Nat} {x : Int}
    (h : Stores depth t f) (nonneg : ∀ rank, 0 ≤ (f rank).duration) (lt : rank < 2 ^ depth)
    (le : x ≤ (f rank).completion + sumWhere depth f fun r => rank < r)
    (top : x ≤ Width.w64.greatest) : x ≤ t.summary.completion := by
  induction depth generalizing t f rank x with
  | zero =>
    obtain rfl : rank = 0 := by simpa using lt
    cases t with
    | leaf s => simpa [sumWhere_zero, summary, show s = f 0 from h] using le
    | inner => exact h.elim
  | succ depth ih =>
    cases t with
    | leaf => exact h.elim
    | inner s left right =>
      obtain ⟨merged, low, high⟩ := h
      obtain ⟨-, right_le, following⟩ := le_of_merge merged
      have pow : 2 ^ (depth + 1) = 2 ^ depth + 2 ^ depth := by omega
      by_cases first : rank < 2 ^ depth
      · have rest : 0 ≤ sumWhere depth (fun r => f (r + 2 ^ depth)) fun _ => True :=
          sumWhere_nonneg fun rank => nonneg _
        rw [sumWhere_later_left f first, ← duration_eq high] at le
        rw [← duration_eq high] at rest
        have here := ih low nonneg first (x := x - right.summary.duration) (by omega) (by omega)
        exact following x (by omega) top
      · obtain ⟨rank, rfl⟩ : ∃ r, rank = r + 2 ^ depth := ⟨rank - 2 ^ depth, by omega⟩
        rw [sumWhere_later_right] at le
        exact Int.le_trans (ih high (fun rank => nonneg _) (by omega) le top) right_le

end Node

namespace CompletionTree

theorem depthFor_le_iff {n depth : Nat} : depthFor n ≤ depth ↔ n ≤ 2 ^ depth := by
  have pos : 0 < 2 ^ depth := Nat.two_pow_pos depth
  unfold depthFor
  split
  · omega
  · rename_i several
    have := Nat.log2_lt (n := n - 1) (k := depth) (by omega)
    omega

theorem le_two_pow_depthFor (n : Nat) : n ≤ 2 ^ depthFor n := depthFor_le_iff.1 (Nat.le_refl _)

theorem depthFor_le {n : Nat} (room : n ≤ Memory.greatestSize) : depthFor n ≤ 63 :=
  depthFor_le_iff.2 (Nat.le_trans room (by decide))

/-- A leaf can be replaced if the durations then add up to a word. -/
theorem exists_insert {t : CompletionTree} {f : Nat → Summary} {rank : Nat}
    {completion duration : Int} (h : t.Stores f) (lt : rank < 2 ^ t.depth) (shallow : t.depth ≤ 63)
    (nonneg : ∀ r, 0 ≤ (if r = rank then (⟨completion, duration⟩ : Summary) else f r).duration)
    (word : Node.sumWhere t.depth (fun r => if r = rank then ⟨completion, duration⟩ else f r)
      (fun _ => True) ≤ Width.w64.greatest) :
    ∃ u, t.insert rank completion duration = .ok u ∧ u.depth = t.depth ∧
      u.Stores fun r => if r = rank then ⟨completion, duration⟩ else f r := by
  obtain ⟨root, here, stores⟩ := h
  obtain ⟨root', replaced⟩ := Node.exists_set stores lt nonneg word
  have pow : 2 ^ t.depth ≤ 2 ^ 63 := Nat.pow_le_pow_right (by decide) shallow
  have index : Memory.addIndex t.nodesAbove rank = .ok (t.nodesAbove + rank) := by
    refine Memory.addIndex_eq_ok_iff.2 ⟨?_, rfl⟩
    simp only [nodesAbove, here, Nat.pow_eq, Memory.indices]
    omega
  have inserted : t.insert rank completion duration = .ok { t with root := some root' } := by
    simp [insert, set, index, here, Nat.pow_eq, Nat.not_le.2 lt, replaced, bind, Except.bind, pure,
      Except.pure]
  obtain ⟨-, depth, stores'⟩ := insert_spec ⟨root, here, stores⟩ inserted
  exact ⟨_, inserted, depth, stores'⟩

end CompletionTree

/-! ## Sets of tasks -/

/-- All tasks are listed in every order. -/
structure Orders.Complete {n : Nat} (o : Orders n) : Prop where
  byStartMin : o.byStartMin.Perm (List.finRange n)
  byEndMin : o.byEndMin.Perm (List.finRange n)
  byStartMax : o.byStartMax.Perm (List.finRange n)
  byEndMax : o.byEndMax.Perm (List.finRange n)

theorem Orders.complete_initial (n : Nat) : (Orders.initial n).Complete :=
  ⟨.refl _, .refl _, .refl _, .refl _⟩

namespace Sweep

variable {n : Nat}

/-- The bounds, the orders and the ranks of a sweep follow from its tasks. -/
structure Derived (s : Sweep n) : Prop where
  startMax : ∀ i, s.startMax.get i = s.endMax.get i - s.duration.get i
  endMin : ∀ i, s.endMin.get i = s.startMin.get i + s.duration.get i
  rank_lt : ∀ i, s.rank.get i < n
  rank_inj : ∀ i j, s.rank.get i = s.rank.get j → i = j
  startMin_le : ∀ i j, s.rank.get i ≤ s.rank.get j → s.startMin.get i ≤ s.startMin.get j
  complete : s.orders.Complete
  byEndMin : s.orders.byEndMin.Pairwise fun i j => s.endMin.get i ≤ s.endMin.get j
  byStartMax : s.orders.byStartMax.Pairwise fun i j => s.startMax.get i ≤ s.startMax.get j
  byEndMax : s.orders.byEndMax.Pairwise fun i j => s.endMax.get i ≤ s.endMax.get j

/-- The latest starts and the earliest ends of the tasks are words. -/
def Fitting (t : Tasks n) : Prop :=
  ∀ i, Width.w64.Holds (t.endMax.get i - t.duration.get i) ∧
    Width.w64.Holds (t.startMin.get i + t.duration.get i)

/-- A sweep can be made of tasks whose bounds are words. -/
theorem exists_ofTasks {t : Tasks n} {orders : Orders n} (fitting : Fitting t)
    (complete : orders.Complete) :
    ∃ s, Sweep.ofTasks t orders = .ok s ∧ s.toTasks = t ∧ s.Derived := by
  have checked : (List.finRange n).forM (checkTask t) = .ok () := by
    generalize List.finRange n = l
    induction l with
    | nil => rfl
    | cons i l ih =>
      have latest : Width.w64.sub t.endMax[i] t.duration[i] = .ok (t.endMax[i] - t.duration[i]) :=
        Width.sub_eq_ok_iff.2 ⟨(fitting i).1, rfl⟩
      have earliest : Width.w64.add t.startMin[i] t.duration[i] =
          .ok (t.startMin[i] + t.duration[i]) := Width.add_eq_ok_iff.2 ⟨(fitting i).2, rfl⟩
      have single : checkTask t i = .ok () := by
        simp only [checkTask, latest, earliest, bind, Except.bind, pure, Except.pure]
      show (do checkTask t i; l.forM (checkTask t)) = .ok ()
      rw [single]
      exact ih
  refine ⟨_, by rw [Sweep.ofTasks, checked]; rfl, rfl, ?_⟩
  have perm := (Orders.perm_sortBy t.startMin orders.byStartMin).trans complete.byStartMin
  have sorted := Orders.pairwise_sortBy t.startMin orders.byStartMin
  have mem (i : Fin n) : i ∈ Orders.sortBy t.startMin orders.byStartMin :=
    perm.mem_iff.2 (List.mem_finRange i)
  exact {
    startMax := fun i => get_ofFn _ i
    endMin := fun i => get_ofFn _ i
    rank_lt := fun i => by
      simp only [Orders.ranks, get_ofFn]
      have := List.idxOf_lt_length_of_mem (mem i)
      rwa [perm.length_eq, List.length_finRange] at this
    rank_inj := fun i j same => by
      simp only [Orders.ranks, get_ofFn] at same
      exact (List.idxOf_inj (mem i)).1 same
    startMin_le := fun i j le => by
      simp only [Orders.ranks, get_ofFn] at le
      rcases Nat.lt_or_eq_of_le le with lt | same
      · have := List.pairwise_iff_getElem.1 sorted _ _ (List.idxOf_lt_length_of_mem (mem i))
          (List.idxOf_lt_length_of_mem (mem j)) lt
        simpa using this
      · rw [(List.idxOf_inj (mem i)).1 same]
    complete := ⟨perm, (Orders.perm_sortBy _ _).trans complete.byEndMin,
      (Orders.perm_sortBy _ _).trans complete.byStartMax,
      (Orders.perm_sortBy _ _).trans complete.byEndMax⟩
    byEndMin := Orders.pairwise_sortBy _ _
    byStartMax := Orders.pairwise_sortBy _ _
    byEndMax := Orders.pairwise_sortBy _ _ }

/-- The leaves hold the tasks of a set. -/
structure Lists (s : Sweep n) (T : Finset (Fin n)) (f : Nat → Summary) : Prop where
  inside : ∀ i ∈ T, f (s.rank.get i) = ⟨s.endMin.get i, s.duration.get i⟩
  outside : ∀ r, (∀ i ∈ T, s.rank.get i ≠ r) → f r = .none

/-- The tree holds a set of tasks. -/
def Holds (s : Sweep n) (tree : CompletionTree) (T : Finset (Fin n)) : Prop :=
  tree.depth = CompletionTree.depthFor n ∧ ∃ f, tree.Stores f ∧ s.Lists T f

theorem holds_reset (s : Sweep n) : s.Holds (.reset n) ∅ :=
  ⟨rfl, _, CompletionTree.stores_reset n, by simp, fun _ _ => rfl⟩

theorem Lists.insert {s : Sweep n} {T : Finset (Fin n)} {f : Nat → Summary} (h : s.Lists T f)
    (derived : s.Derived) (i : Fin n) : s.Lists (Insert.insert i T) fun r =>
      if r = s.rank.get i then ⟨s.endMin.get i, s.duration.get i⟩ else f r := by
  refine ⟨fun j mem => ?_, fun r absent => ?_⟩
  · by_cases same : j = i
    · subst same
      exact if_pos rfl
    · have differs : s.rank.get j ≠ s.rank.get i := fun eq => same (derived.rank_inj j i eq)
      simp only [differs, if_false]
      exact h.inside j ((mem_insert.1 mem).resolve_left same)
  · have differs : r ≠ s.rank.get i := fun eq => absent i (mem_insert_self i T) eq.symm
    simp only [differs, if_false]
    exact h.outside r fun j mem => absent j (mem_insert_of_mem mem)

/-- A tree that takes a task in holds it, and the node of the task can be indexed. -/
theorem Holds.insert {s : Sweep n} {tree tree' : CompletionTree} {T : Finset (Fin n)} {i : Fin n}
    (h : s.Holds tree T) (derived : s.Derived) (ran : s.insert tree i = .ok tree') :
    s.Holds tree' (Insert.insert i T) ∧
      2 ^ CompletionTree.depthFor n - 1 + s.rank.get i < Memory.indices := by
  obtain ⟨depth, f, stores, listed⟩ := h
  have ran : tree.insert (s.rank.get i) (s.endMin.get i) (s.duration.get i) = .ok tree' := ran
  obtain ⟨-, depth', stores'⟩ := CompletionTree.insert_spec stores ran
  refine ⟨⟨depth'.trans depth, _, stores', listed.insert derived i⟩, ?_⟩
  obtain ⟨_, indexed, -⟩ := bind_eq_ok_iff.1 ran
  obtain ⟨root, here, -⟩ := stores
  have := (Memory.addIndex_eq_ok_iff.1 indexed).1
  simpa only [CompletionTree.nodesAbove, here, Nat.pow_eq, depth] using this

/-- Sums over leaves are sums over tasks. -/
theorem Lists.sumWhere_eq {s : Sweep n} {T : Finset (Fin n)} {f : Nat → Summary}
    (h : s.Lists T f) (derived : s.Derived) (p : Nat → Prop) [DecidablePred p] :
    Node.sumWhere (CompletionTree.depthFor n) f p =
      ∑ i ∈ T with p (s.rank.get i), s.duration.get i := by
  have ranked : ∑ i ∈ T, (if p (s.rank.get i) then (f (s.rank.get i)).duration else 0) =
      ∑ r ∈ T.image s.rank.get, if p r then (f r).duration else 0 :=
    (sum_image (f := fun r => if p r then (f r).duration else 0)
      fun i _ j _ same => derived.rank_inj i j same).symm
  have within : T.image s.rank.get ⊆ range (2 ^ CompletionTree.depthFor n) := by
    intro r mem
    obtain ⟨i, -, rfl⟩ := mem_image.1 mem
    exact mem_range.2 (Nat.lt_of_lt_of_le (derived.rank_lt i)
      (CompletionTree.le_two_pow_depthFor n))
  rw [sum_filter, Node.sumWhere, ← sum_subset within, ← ranked]
  · refine sum_congr rfl fun i mem => ?_
    rw [h.inside i mem]
  · intro r _ absent
    rw [h.outside r fun i mem same => absent (mem_image.2 ⟨i, mem, same⟩)]
    simp [Summary.none]

theorem Lists.duration_nonneg {s : Sweep n} {T : Finset (Fin n)} {f : Nat → Summary}
    (h : s.Lists T f) (nonneg : ∀ i, 0 ≤ s.duration.get i) (r : Nat) : 0 ≤ (f r).duration := by
  by_cases listed : ∃ i ∈ T, s.rank.get i = r
  · obtain ⟨i, mem, rfl⟩ := listed
    rw [h.inside i mem]
    exact nonneg i
  · rw [h.outside r fun i mem same => listed ⟨i, mem, same⟩]
    exact Int.le_refl 0

section Trees

variable {s : Sweep n} {tree : CompletionTree} {T : Finset (Fin n)} (h : s.Holds tree T)
  (derived : s.Derived) (shallow : CompletionTree.depthFor n ≤ 63)
  (nonneg : ∀ i, 0 ≤ s.duration.get i) (total : ∑ i, s.duration.get i ≤ Width.w64.greatest)
include h derived shallow nonneg total

/-- Replacing the leaf of a task by one that belongs to a set of tasks. -/
theorem exists_replace {i : Fin n} {completion duration : Int} {U : Finset (Fin n)}
    (lists : ∀ f, s.Lists T f →
      s.Lists U fun r => if r = s.rank.get i then ⟨completion, duration⟩ else f r) :
    ∃ u, tree.insert (s.rank.get i) completion duration = .ok u ∧ s.Holds u U := by
  obtain ⟨depth, f, stores, listed⟩ := h
  have listed' := lists f listed
  have lt : s.rank.get i < 2 ^ tree.depth := by
    rw [depth]
    exact Nat.lt_of_lt_of_le (derived.rank_lt i) (CompletionTree.le_two_pow_depthFor n)
  obtain ⟨u, inserted, depth', stores'⟩ := CompletionTree.exists_insert stores lt
    (by rw [depth]; exact shallow) (listed'.duration_nonneg nonneg)
    (by
      rw [depth, listed'.sumWhere_eq derived, filter_true]
      exact Int.le_trans (sum_le_sum_of_subset_of_nonneg (subset_univ U) fun j _ _ => nonneg j)
        total)
  exact ⟨u, inserted, depth'.trans depth, _, stores', listed'⟩

theorem exists_insert (i : Fin n) :
    ∃ u, s.insert tree i = .ok u ∧ s.Holds u (Insert.insert i T) :=
  exists_replace h derived shallow nonneg total fun _ listed => listed.insert derived i

theorem exists_remove (i : Fin n) :
    ∃ u, tree.remove (s.rank.get i) = .ok u ∧ s.Holds u (T.erase i) := by
  refine exists_replace h derived shallow nonneg total fun f listed =>
    ⟨fun j mem => ?_, fun r absent => ?_⟩
  · obtain ⟨same, mem⟩ := mem_erase.1 mem
    have differs : s.rank.get j ≠ s.rank.get i := fun eq => same (derived.rank_inj j i eq)
    simp only [differs, if_false]
    exact listed.inside j mem
  · split
    · rfl
    · rename_i differs
      exact listed.outside r fun j mem same => absent j
        (mem_erase.2 ⟨fun eq => differs (by rw [← same, eq]), mem⟩) same

end Trees

/-- From a task of the set on, the tasks of no lesser rank follow each other. -/
theorem Lists.completion_add_sumWhere {s : Sweep n} {T : Finset (Fin n)} {f : Nat → Summary}
    (h : s.Lists T f) (derived : s.Derived) {j : Fin n} (mem : j ∈ T) :
    (f (s.rank.get j)).completion +
        Node.sumWhere (CompletionTree.depthFor n) f (fun r => s.rank.get j < r) =
      s.startMin.get j + ∑ i ∈ T with s.rank.get j ≤ s.rank.get i, s.duration.get i := by
  have split : T.filter (fun i => s.rank.get j ≤ s.rank.get i) =
      Insert.insert j (T.filter fun i => s.rank.get j < s.rank.get i) := by
    ext i
    simp only [mem_filter, mem_insert]
    constructor
    · rintro ⟨here, le⟩
      rcases Nat.lt_or_eq_of_le le with lt | same
      · exact .inr ⟨here, lt⟩
      · exact .inl (derived.rank_inj j i same).symm
    · rintro (rfl | ⟨here, lt⟩)
      · exact ⟨mem, Nat.le_refl _⟩
      · exact ⟨here, Nat.le_of_lt lt⟩
  rw [h.sumWhere_eq derived, split, sum_insert (by simp), h.inside j mem]
  simp only [derived.endMin j]
  omega

/-- The completion of a set of tasks is at most a bound that is not exceeded when all tasks that do
not start earlier than some task of the set follow each other from the start of that task on. -/
theorem Holds.completion_le {s : Sweep n} {tree : CompletionTree} {T : Finset (Fin n)} {bound : Int}
    (h : s.Holds tree T) (derived : s.Derived) (nonneg : ∀ i, 0 ≤ s.duration.get i)
    (floor : Width.w64.least + ∑ i ∈ T, s.duration.get i ≤ bound)
    (each : ∀ j ∈ T, s.startMin.get j +
      ∑ i ∈ T with s.rank.get j ≤ s.rank.get i, s.duration.get i ≤ bound) :
    ∃ completion, tree.completion = .ok completion ∧ completion ≤ bound := by
  obtain ⟨depth, f, ⟨root, known, stores⟩, listed⟩ := h
  refine ⟨root.summary.completion, by simp [CompletionTree.completion, known], ?_⟩
  rw [depth] at stores
  refine Node.completion_le stores (listed.duration_nonneg nonneg) ?_ fun r lt => ?_
  · rw [listed.sumWhere_eq derived, filter_true]
    exact floor
  · by_cases task : ∃ j ∈ T, s.rank.get j = r
    · obtain ⟨j, mem, rfl⟩ := task
      rw [listed.completion_add_sumWhere derived mem]
      exact each j mem
    · rw [listed.sumWhere_eq derived, listed.outside r fun i mem same => task ⟨i, mem, same⟩]
      refine Int.le_trans (Int.add_le_add_left ?_ _) floor
      exact sum_le_sum_of_subset_of_nonneg (filter_subset _ T) fun i _ _ => nonneg i

/-- From the start of every task of the set on, those that do not start earlier follow each other
until the completion, unless their end is too late for a word. -/
theorem Holds.le_completion {s : Sweep n} {tree : CompletionTree} {T : Finset (Fin n)}
    {completion : Int} (h : s.Holds tree T) (derived : s.Derived)
    (nonneg : ∀ i, 0 ≤ s.duration.get i) (known : tree.completion = .ok completion) {j : Fin n}
    (mem : j ∈ T) {x : Int} (le : x ≤ s.startMin.get j +
      ∑ i ∈ T with s.rank.get j ≤ s.rank.get i, s.duration.get i) (top : x ≤ Width.w64.greatest) :
    x ≤ completion := by
  obtain ⟨depth, f, ⟨root, here, stores⟩, listed⟩ := h
  simp only [CompletionTree.completion, here] at known
  cases known
  rw [depth] at stores
  have lt : s.rank.get j < 2 ^ CompletionTree.depthFor n :=
    Nat.lt_of_lt_of_le (derived.rank_lt j) (CompletionTree.le_two_pow_depthFor n)
  refine Node.le_completion_of_le_add stores (listed.duration_nonneg nonneg) lt ?_ top
  rwa [listed.completion_add_sumWhere derived mem]

end Sweep

end Scheduling
