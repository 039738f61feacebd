import Scheduling.Proofs.Disjunctive.Rounds

/-!
# The rules on a selection of the tasks

Tasks that push no other can be left out: the rules find the same about the tasks that stay, in
whatever order these are. When no task is left out, this says that the order of the tasks does not
matter.

Results:
* `Tasks.select`: the tasks at some places.
* `Tasks.earliestCompletion_select`: the completion of selected tasks.
* `Tasks.overloaded_select`, `Tasks.raised_select`, `Tasks.lowered_select`: the three rules.
* `Tasks.Filters.select`: the rounds of the filter.
-/

namespace Scheduling

open Finset

namespace Tasks

variable {m n : Nat}

/-- The tasks at the given places. -/
def select (t : Tasks n) (e : Fin m ↪ Fin n) : Tasks m where
  startMin := Vector.ofFn fun i => t.startMin.get (e i)
  duration := Vector.ofFn fun i => t.duration.get (e i)
  endMax := Vector.ofFn fun i => t.endMax.get (e i)

variable (t : Tasks n) (e : Fin m ↪ Fin n)

@[simp] theorem startMin_select (i : Fin m) : (t.select e).startMin.get i = t.startMin.get (e i) :=
  get_ofFn _ i

@[simp] theorem duration_select (i : Fin m) : (t.select e).duration.get i = t.duration.get (e i) :=
  get_ofFn _ i

@[simp] theorem endMax_select (i : Fin m) : (t.select e).endMax.get i = t.endMax.get (e i) :=
  get_ofFn _ i

@[simp] theorem latestStart_select (i : Fin m) :
    (t.select e).latestStart i = t.latestStart (e i) := by
  simp [latestStart]

@[simp] theorem earliestEnd_select (i : Fin m) :
    (t.select e).earliestEnd i = t.earliestEnd (e i) := by
  simp [earliestEnd]

/-- Tasks are given by the entries of their vectors. -/
theorem eq_of_get {t u : Tasks n} (startMin : ∀ i, t.startMin.get i = u.startMin.get i)
    (duration : ∀ i, t.duration.get i = u.duration.get i)
    (endMax : ∀ i, t.endMax.get i = u.endMax.get i) : t = u := by
  obtain ⟨a, b, c⟩ := t
  obtain ⟨a', b', c'⟩ := u
  rw [Tasks.mk.injEq]
  exact ⟨Scheduling.eq_of_get startMin, Scheduling.eq_of_get duration, Scheduling.eq_of_get endMax⟩

theorem chainEnd_select (O : Finset (Fin m)) (some : O.Nonempty) :
    (t.select e).chainEnd O some = t.chainEnd (O.map e) (some.map) := by
  unfold chainEnd
  rw [sum_map, inf'_map]
  congr 1
  · exact inf'_congr some rfl fun i _ => startMin_select t e i
  · exact sum_congr rfl fun i _ => duration_select t e i

/-- Selected tasks are completed when they are completed among all. -/
theorem earliestCompletion_select (T : Finset (Fin m)) :
    (t.select e).earliestCompletion T = t.earliestCompletion (T.map e) := by
  refine le_antisymm (earliestCompletion_le.2 fun O subset some => ?_)
    (earliestCompletion_le.2 fun O subset some => ?_)
  · rw [chainEnd_select]
    exact earliestCompletion_le.1 (le_refl _) (O.map e) (map_subset_map.2 subset) some.map
  · obtain ⟨O', subset', rfl⟩ := subset_map_iff.1 subset
    have some' : O'.Nonempty := map_nonempty.1 some
    rw [← chainEnd_select t e O' some']
    exact earliestCompletion_le.1 (le_refl _) O' subset' some'

theorem earliestCompletion_select_le (T : Finset (Fin m)) :
    (t.select e).earliestCompletion T ≤ t.earliestCompletion univ := by
  rw [earliestCompletion_select]
  exact earliestCompletion_mono (subset_univ _)

variable {t e}

/-- If all tasks that have to start before a time are selected, they are the same. -/
theorem map_before {time : Int} (selected : t.before time ⊆ univ.map e) :
    ((t.select e).before time).map e = t.before time := by
  ext k
  rw [mem_map, mem_before]
  constructor
  · rintro ⟨i, mem, rfl⟩
    rwa [mem_before, latestStart_select] at mem
  · intro early
    obtain ⟨i, -, rfl⟩ := mem_map.1 (selected (mem_before.2 early))
    exact ⟨i, by rwa [mem_before, latestStart_select], rfl⟩

theorem map_due {time : Int} (selected : t.due time ⊆ univ.map e) :
    ((t.select e).due time).map e = t.due time := by
  ext k
  rw [mem_map, mem_due]
  constructor
  · rintro ⟨i, mem, rfl⟩
    rwa [mem_due, endMax_select] at mem
  · intro le
    obtain ⟨i, -, rfl⟩ := mem_map.1 (selected (mem_due.2 le))
    exact ⟨i, by rwa [mem_due, endMax_select], rfl⟩

/-- The completion of the tasks that have to start before a time, but for one of them. -/
theorem earliestCompletion_before_select {time : Int} (selected : t.before time ⊆ univ.map e)
    (i : Fin m) : (t.select e).earliestCompletion (((t.select e).before time).erase i) =
      t.earliestCompletion ((t.before time).erase (e i)) := by
  rw [earliestCompletion_select, map_erase, map_before selected]

section Rules

variable (aloof : ∀ k, k ∉ univ.map e → t.Aloof k)
include aloof

/-! ## The rules -/

theorem overloaded_select : (t.select e).Overloaded ↔ t.Overloaded := by
  rw [overloaded_iff, overloaded_iff]
  constructor
  · rintro ⟨i, late⟩
    refine ⟨e i, ?_⟩
    rw [endMax_select] at late
    refine late.trans_le ?_
    rw [earliestCompletion_select]
    refine earliestCompletion_mono fun k mem => ?_
    obtain ⟨j, due, rfl⟩ := mem_map.1 mem
    rw [mem_due, endMax_select] at due
    exact mem_due.2 due
  · rintro ⟨k, late⟩
    have selected := due_endMax_subset aloof
      (late.trans_le (earliestCompletion_mono (subset_univ _)))
    obtain ⟨i, -, rfl⟩ := mem_map.1 (selected (mem_due.2 (Int.le_refl _)))
    refine ⟨i, ?_⟩
    rw [endMax_select, earliestCompletion_select, map_due selected]
    exact late

theorem raisedStart_select (i : Fin m) : (t.select e).raisedStart i = t.raisedStart (e i) := by
  unfold raisedStart
  rw [earliestEnd_select, startMin_select,
    earliestCompletion_before_select (before_earliestEnd_subset aloof (e i))]

theorem loweredEnd_select (i : Fin m) : (t.select e).loweredEnd i = t.loweredEnd (e i) := by
  by_cases late : (t.latestStart (e i) : WithBot Int) < t.earliestCompletion univ
  · have selected := before_endMax_subset aloof late
    have same : ((t.select e).before (t.endMax.get (e i))).sup
          (fun j => ((t.select e).latestStart j : WithBot Int)) =
        (t.before (t.endMax.get (e i))).sup fun j => (t.latestStart j : WithBot Int) := by
      rw [← map_before selected, sup_map]
      exact sup_congr rfl fun j _ => by simp
    unfold loweredEnd
    rw [latestStart_select, endMax_select, earliestCompletion_before_select selected, same]
  · have inTime := not_lt.1 late
    rw [loweredEnd_eq_endMax, loweredEnd_eq_endMax, endMax_select]
    · exact (earliestCompletion_mono (subset_univ _)).trans inTime
    · rw [latestStart_select]
      exact ((earliestCompletion_mono (subset_univ _)).trans
        (earliestCompletion_select_le t e univ)).trans inTime

theorem raised_select : (t.select e).raised = t.raised.select e := by
  refine eq_of_get (fun i => ?_) (fun i => ?_) fun i => ?_
  · rw [get_raised, startMin_select, get_raised, raisedStart_select aloof]
  · exact (duration_select t e i).trans (duration_select t.raised e i).symm
  · exact (endMax_select t e i).trans (endMax_select t.raised e i).symm

theorem lowered_select : (t.select e).lowered = t.lowered.select e := by
  refine eq_of_get (fun i => ?_) (fun i => ?_) fun i => ?_
  · exact (startMin_select t e i).trans (startMin_select t.lowered e i).symm
  · exact (duration_select t e i).trans (duration_select t.lowered e i).symm
  · rw [get_lowered, endMax_select, get_lowered, loweredEnd_select aloof]

theorem round_select (aloof' : ∀ k, k ∉ univ.map e → t.raised.Aloof k) :
    (t.select e).round = t.round.select e := by
  unfold round
  rw [raised_select aloof, lowered_select aloof']

end Rules

/-! ## The rounds -/

/-- What the rounds come to, they come to for a selection, as long as the other tasks push none. -/
theorem Filters.select {r : Option (Tasks n)} {P : Tasks n → Prop}
    (aloof : ∀ t, P t → ∀ k, k ∉ univ.map e → t.Aloof k)
    (aloof' : ∀ t, P t → ¬ t.Overloaded → ∀ k, k ∉ univ.map e → t.raised.Aloof k)
    (step : ∀ t, P t → ¬ t.Overloaded → P t.round) (h : Filters t r) (start : P t) :
    Filters (t.select e) (r.map fun t' => t'.select e) := by
  induction h with
  | overloaded overload => exact .overloaded ((overloaded_select (aloof _ start)).2 overload)
  | settled free same =>
    refine .settled (mt (overloaded_select (aloof _ start)).1 free) ?_
    rw [round_select (aloof _ start) (aloof' _ start free), same]
  | next free _ _ ih =>
    refine .of_round (mt (overloaded_select (aloof _ start)).1 free) ?_
    rw [round_select (aloof _ start) (aloof' _ start free)]
    exact ih (step _ start free)

/-! ## Tasks in another order -/

section Order

variable (all : ∀ k, k ∈ univ.map e)
include all

/-- The rounds do not depend on the order of the tasks. -/
theorem Filters.reindex {r : Option (Tasks n)} (h : Filters t r) :
    Filters (t.select e) (r.map fun t' => t'.select e) :=
  h.select (P := fun _ => True) (fun _ _ k out => absurd (all k) out)
    (fun _ _ _ k out => absurd (all k) out) (fun _ _ _ => trivial) trivial

theorem select_inj {u : Tasks n} : u.select e = t.select e ↔ u = t := by
  refine ⟨fun same => ?_, fun same => by rw [same]⟩
  refine eq_of_get (fun k => ?_) (fun k => ?_) fun k => ?_ <;>
    obtain ⟨i, -, rfl⟩ := mem_map.1 (all k)
  · rw [← startMin_select, same, startMin_select]
  · rw [← duration_select, same, duration_select]
  · rw [← endMax_select, same, endMax_select]

/-- The verdict does not depend on the order of the tasks, and the tasks are left in their order. -/
theorem outcome_select (r : Option (Tasks n)) : (t.select e).outcome (r.map fun t' => t'.select e) =
    ((t.outcome r).1, (t.outcome r).2.select e) := by
  cases r with
  | none => rfl
  | some t' =>
    unfold outcome
    simp only [Option.map_some, select_inj all]

end Order

/-- Tasks that are alike come to the same. -/
theorem Filters.alike {t' : Tasks n} (h : Filters t (some t')) {k l : Fin n}
    (startMin : t.startMin.get k = t.startMin.get l)
    (duration : t.duration.get k = t.duration.get l) (endMax : t.endMax.get k = t.endMax.get l) :
    t'.startMin.get k = t'.startMin.get l ∧ t'.endMax.get k = t'.endMax.get l := by
  let σ := (Equiv.swap k l).toEmbedding
  have fixed : t.select σ = t := by
    refine eq_of_get (fun i => ?_) (fun i => ?_) fun i => ?_
    · exact (startMin_select t σ i).trans (Equiv.apply_swap_eq_self startMin i)
    · exact (duration_select t σ i).trans (Equiv.apply_swap_eq_self duration i)
    · exact (endMax_select t σ i).trans (Equiv.apply_swap_eq_self endMax i)
  have again := h.reindex (e := σ) fun i => by simp [σ]
  rw [fixed] at again
  have same : t'.select σ = t' := Option.some.inj (again.unique h)
  have swapped : σ k = l := Equiv.swap_apply_left k l
  constructor
  · rw [← swapped, ← startMin_select t' σ k, same]
  · rw [← swapped, ← endMax_select t' σ k, same]

/-- Some of the tasks leave room for sums, in any order. -/
theorem Roomy.select (h : t.Roomy) (e : Fin m ↪ Fin n) : (t.select e).Roomy where
  depth_le := by
    have few : m ≤ n := by simpa using Fintype.card_le_of_embedding e
    exact Nat.le_trans (CompletionTree.depthFor_le_iff.2
      (Nat.le_trans few (CompletionTree.le_two_pow_depthFor n))) h.depth_le
  duration_nonneg i := by
    rw [duration_select]
    exact h.duration_nonneg _
  duration_le i := by
    rw [duration_select]
    exact h.duration_le _
  sum_le := by
    simp only [duration_select]
    rw [← sum_map univ e t.duration.get]
    exact h.sum_le_of_subset _
  le_startMin i := by
    rw [startMin_select]
    exact h.le_startMin _
  startMin_le i := by
    rw [startMin_select]
    exact h.startMin_le _
  le_endMax i := by
    rw [endMax_select]
    exact h.le_endMax _
  endMax_le i := by
    rw [endMax_select]
    exact h.endMax_le _

end Tasks

end Scheduling
