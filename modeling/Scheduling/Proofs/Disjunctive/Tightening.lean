import Mathlib.Data.Finset.Lattice.Fold
import Mathlib.Data.Fintype.Powerset
import Mathlib.Data.Int.ConditionallyCompleteOrder
import Mathlib.Order.WithBot
import Scheduling.Proofs.Disjunctive.Completion

/-!
# The rules on sets of tasks

What the rules of the filter ask for can be said without sweeps, orders and trees: in terms of the
earliest completion of sets of tasks, which is the latest end of a chain of some of them.

Results:
* `Tasks.earliestCompletion`: the greatest end of a chain of tasks of a set.
* `Tasks.Overloaded`, `Tasks.raised`, `Tasks.lowered`: the three rules; `Tasks.round`: one round of
  them.
* `Tasks.completesBy_iff`: a set of tasks is completed by a time, said task by task.
* `Tasks.Aloof`: a task that pushes no other one.
* `Tasks.Central`: tasks whose own bounds leave room for sums.
* `Tasks.Admissible`, `Tasks.Roomy`: central tasks whose durations do not add up to too much, the
  latter kept by `Tasks.Roomy.round`.
-/

namespace Scheduling

open Finset

namespace Tasks

variable {n : Nat} {t : Tasks n} {O T U : Finset (Fin n)} {bound : Int}

/-- The latest time at which a task can start. -/
def latestStart (t : Tasks n) (i : Fin n) : Int := t.endMax.get i - t.duration.get i

/-- The earliest time at which a task can end. -/
def earliestEnd (t : Tasks n) (i : Fin n) : Int := t.startMin.get i + t.duration.get i

/-- The tasks that have to end by a time. -/
def due (t : Tasks n) (time : Int) : Finset (Fin n) := univ.filter fun j => t.endMax.get j ≤ time

/-- The tasks that have to start before a time. -/
def before (t : Tasks n) (time : Int) : Finset (Fin n) :=
  univ.filter fun j => t.endMax.get j - t.duration.get j < time

theorem mem_due {time : Int} {j : Fin n} : j ∈ t.due time ↔ t.endMax.get j ≤ time := by
  simp [due]

theorem mem_before {time : Int} {j : Fin n} : j ∈ t.before time ↔ t.latestStart j < time := by
  simp [before, latestStart]

theorem mem_before_erase {time : Int} {i j : Fin n} :
    j ∈ (t.before time).erase i ↔ j ≠ i ∧ t.latestStart j < time := by
  rw [mem_erase, mem_before]

/-! ## The completion of a set of tasks -/

/-- The end of tasks that follow each other from the first of their earliest starts on. -/
def chainEnd (t : Tasks n) (O : Finset (Fin n)) (some : O.Nonempty) : Int :=
  O.inf' some t.startMin.get + ∑ i ∈ O, t.duration.get i

/-- The earliest completion of a set of tasks is the greatest end of a chain of some of them. No
tasks are completed before all times. -/
def earliestCompletion (t : Tasks n) (T : Finset (Fin n)) : WithBot Int :=
  T.powerset.sup fun O => if some : O.Nonempty then (t.chainEnd O some : WithBot Int) else ⊥

theorem earliestCompletion_le {b : WithBot Int} : t.earliestCompletion T ≤ b ↔
    ∀ O ⊆ T, ∀ some : O.Nonempty, (t.chainEnd O some : WithBot Int) ≤ b := by
  unfold earliestCompletion
  rw [Finset.sup_le_iff]
  constructor
  · intro le O subset some
    have := le O (mem_powerset.2 subset)
    rwa [dif_pos some] at this
  · intro le O mem
    split
    · exact le O (mem_powerset.1 mem) ‹_›
    · exact bot_le

theorem earliestCompletion_le_coe : t.earliestCompletion T ≤ bound ↔
    ∀ O ⊆ T, ∀ some : O.Nonempty, t.chainEnd O some ≤ bound := by
  rw [earliestCompletion_le]
  simp only [WithBot.coe_le_coe]

theorem earliestCompletion_mono (subset : U ⊆ T) :
    t.earliestCompletion U ≤ t.earliestCompletion T := by
  refine earliestCompletion_le.2 fun O within some => ?_
  exact earliestCompletion_le.1 (le_refl _) O (within.trans subset) some

/-- From the start of each task of the set on, those that do not start earlier can follow each other
and be completed by the given time. -/
def CompletesBy (t : Tasks n) (T : Finset (Fin n)) (bound : Int) : Prop :=
  ∀ k ∈ T, t.startMin.get k +
    ∑ j ∈ T with t.startMin.get k ≤ t.startMin.get j, t.duration.get j ≤ bound

/-- The latest chain of a set consists of all its tasks from some start on. -/
theorem completesBy_iff (nonneg : ∀ i, 0 ≤ t.duration.get i) :
    t.CompletesBy T bound ↔ t.earliestCompletion T ≤ bound := by
  rw [earliestCompletion_le_coe]
  constructor
  · intro completes O subset some
    obtain ⟨k, mem, first⟩ := O.exists_mem_eq_inf' some t.startMin.get
    unfold chainEnd
    rw [first]
    refine Int.le_trans (Int.add_le_add_left ?_ _) (completes k (subset mem))
    refine sum_le_sum_of_subset_of_nonneg (fun j inside => ?_) fun j _ _ => nonneg j
    rw [mem_filter, ← first]
    exact ⟨subset inside, O.inf'_le t.startMin.get inside⟩
  · intro le k mem
    have some : (T.filter fun j => t.startMin.get k ≤ t.startMin.get j).Nonempty :=
      ⟨k, mem_filter.2 ⟨mem, Int.le_refl _⟩⟩
    refine Int.le_trans ?_ (le _ (filter_subset _ T) some)
    unfold chainEnd
    refine Int.add_le_add_right (le_inf' _ _ fun j inside => ?_) _
    exact (mem_filter.1 inside).2

/-! ## The rules -/

/-- Some tasks cannot follow each other between the first of their earliest starts and the last of
their latest ends. -/
def Overloaded (t : Tasks n) : Prop :=
  ∃ O : Finset (Fin n), ∃ some : O.Nonempty, O.sup' some t.endMax.get < t.chainEnd O some

instance (t : Tasks n) : Decidable t.Overloaded :=
  inferInstanceAs (Decidable (∃ O : Finset (Fin n), ∃ some : O.Nonempty,
    O.sup' some t.endMax.get < t.chainEnd O some))

/-- The start of a task as its detectable precedences ask for it. -/
def raisedStart (t : Tasks n) (i : Fin n) : Int :=
  max (t.startMin.get i)
    ((t.earliestCompletion ((t.before (t.earliestEnd i)).erase i)).unbotD (t.startMin.get i))

/-- The end of a task as the not-last rule asks for it. -/
noncomputable def loweredEnd (t : Tasks n) (i : Fin n) : Int :=
  if (t.latestStart i : WithBot Int) < t.earliestCompletion ((t.before (t.endMax.get i)).erase i) then
    ((t.before (t.endMax.get i)).sup fun j => (t.latestStart j : WithBot Int)).unbotD (t.endMax.get i)
  else t.endMax.get i

/-- All starts are raised. -/
def raised (t : Tasks n) : Tasks n := { t with startMin := Vector.ofFn t.raisedStart }

/-- All ends are lowered. -/
noncomputable def lowered (t : Tasks n) : Tasks n := { t with endMax := Vector.ofFn t.loweredEnd }

/-- One round of the rules. -/
noncomputable def round (t : Tasks n) : Tasks n := t.raised.lowered

theorem get_raised (t : Tasks n) (i : Fin n) : t.raised.startMin.get i = t.raisedStart i :=
  get_ofFn _ i

theorem get_lowered (t : Tasks n) (i : Fin n) : t.lowered.endMax.get i = t.loweredEnd i :=
  get_ofFn _ i

@[simp] theorem latestStart_raised (t : Tasks n) (i : Fin n) :
    t.raised.latestStart i = t.latestStart i := rfl

theorem overloaded_iff (t : Tasks n) :
    t.Overloaded ↔
      ∃ i, (t.endMax.get i : WithBot Int) < t.earliestCompletion (t.due (t.endMax.get i)) := by
  constructor
  · rintro ⟨O, some, late⟩
    obtain ⟨i, -, last⟩ := O.exists_mem_eq_sup' some t.endMax.get
    refine ⟨i, lt_of_lt_of_le (WithBot.coe_lt_coe.2 (last ▸ late)) ?_⟩
    refine earliestCompletion_le.1 (le_refl _) O (fun j inside => ?_) some
    rw [mem_due, ← last]
    exact O.le_sup' t.endMax.get inside
  · rintro ⟨i, late⟩
    rw [← not_le, earliestCompletion_le_coe] at late
    push Not at late
    obtain ⟨O, within, some, late⟩ := late
    refine ⟨O, some, lt_of_le_of_lt (sup'_le some _ fun j inside => ?_) late⟩
    exact mem_due.1 (within inside)

theorem coe_raisedStart (t : Tasks n) (i : Fin n) : (t.raisedStart i : WithBot Int) =
    max (t.startMin.get i : WithBot Int)
      (t.earliestCompletion ((t.before (t.earliestEnd i)).erase i)) := by
  unfold raisedStart
  cases t.earliestCompletion ((t.before (t.earliestEnd i)).erase i) with
  | bot => simp
  | coe c => simp

theorem raisedStart_le_iff {i : Fin n} : t.raisedStart i ≤ bound ↔ t.startMin.get i ≤ bound ∧
    t.earliestCompletion ((t.before (t.earliestEnd i)).erase i) ≤ bound := by
  rw [← WithBot.coe_le_coe, coe_raisedStart, max_le_iff, WithBot.coe_le_coe]

theorem startMin_le_raisedStart (t : Tasks n) (i : Fin n) : t.startMin.get i ≤ t.raisedStart i :=
  (raisedStart_le_iff.1 (Int.le_refl _)).1

/-- A task that is not last ends by the latest start of some task that can come after it. -/
theorem isGreatest_loweredEnd {i : Fin n}
    (late : (t.latestStart i : WithBot Int) <
      t.earliestCompletion ((t.before (t.endMax.get i)).erase i)) :
    IsGreatest {time | ∃ j, t.latestStart j = time ∧ time < t.endMax.get i} (t.loweredEnd i) := by
  have some : (t.before (t.endMax.get i)).Nonempty := by
    rw [← not_le, earliestCompletion_le_coe] at late
    push Not at late
    obtain ⟨O, within, ⟨j, inside⟩, -⟩ := late
    exact ⟨j, mem_of_mem_erase (within inside)⟩
  obtain ⟨j, mem, greatest⟩ := exists_max_image _ t.latestStart some
  have eq : t.loweredEnd i = t.latestStart j := by
    unfold loweredEnd
    rw [if_pos late, le_antisymm (Finset.sup_le fun k mem => WithBot.coe_le_coe.2 (greatest k mem))
      (le_sup (f := fun j => (t.latestStart j : WithBot Int)) mem)]
    rfl
  rw [eq]
  refine ⟨⟨j, rfl, mem_before.1 mem⟩, ?_⟩
  rintro _ ⟨k, rfl, lt⟩
  exact greatest k (mem_before.2 lt)

theorem loweredEnd_eq_endMax {i : Fin n}
    (inTime : t.earliestCompletion ((t.before (t.endMax.get i)).erase i) ≤ t.latestStart i) :
    t.loweredEnd i = t.endMax.get i :=
  if_neg (not_lt.2 inTime)

theorem loweredEnd_le (t : Tasks n) (i : Fin n) : t.loweredEnd i ≤ t.endMax.get i := by
  by_cases late : (t.latestStart i : WithBot Int) <
      t.earliestCompletion ((t.before (t.endMax.get i)).erase i)
  · obtain ⟨j, -, lt⟩ := (isGreatest_loweredEnd late).1
    exact Int.le_of_lt lt
  · exact Int.le_of_eq (loweredEnd_eq_endMax (not_lt.1 late))

/-- The end of a task stays exactly if the others can be completed before it starts. -/
theorem loweredEnd_eq_endMax_iff {i : Fin n} : t.loweredEnd i = t.endMax.get i ↔
    t.earliestCompletion ((t.before (t.endMax.get i)).erase i) ≤ t.latestStart i := by
  refine ⟨fun same => not_lt.1 fun late => ?_, loweredEnd_eq_endMax⟩
  obtain ⟨j, -, lt⟩ := (isGreatest_loweredEnd late).1
  omega

theorem exists_latestStart_eq_loweredEnd (t : Tasks n) (i : Fin n) :
    t.loweredEnd i = t.endMax.get i ∨ ∃ j, t.latestStart j = t.loweredEnd i := by
  by_cases late : (t.latestStart i : WithBot Int) <
      t.earliestCompletion ((t.before (t.endMax.get i)).erase i)
  · obtain ⟨j, eq, -⟩ := (isGreatest_loweredEnd late).1
    exact .inr ⟨j, eq⟩
  · exact .inl (loweredEnd_eq_endMax (not_lt.1 late))

/-! ## Tasks that push no other -/

/-- A task that no rule makes another one follow: nothing has to come after it, no end falls because
of it, and everything is completed before it has to end. -/
structure Aloof (t : Tasks n) (k : Fin n) : Prop where
  earliestEnd_le : ∀ i, t.earliestEnd i ≤ t.latestStart k
  endMax_le : ∀ i, t.endMax.get i ≤ t.latestStart k ∨ t.earliestCompletion univ ≤ t.latestStart i
  completion_le : t.earliestCompletion univ ≤ t.endMax.get k

/-- Aloof tasks need not start before another task can end. -/
theorem before_earliestEnd_subset {P : Finset (Fin n)} (aloof : ∀ k, k ∉ P → t.Aloof k)
    (i : Fin n) :
    t.before (t.earliestEnd i) ⊆ P := by
  intro k mem
  by_contra out
  have := (aloof k out).earliestEnd_le i
  rw [mem_before] at mem
  omega

/-- Aloof tasks need not start before the end of a task, if this end is to fall. -/
theorem before_endMax_subset {P : Finset (Fin n)} (aloof : ∀ k, k ∉ P → t.Aloof k) {i : Fin n}
    (late : (t.latestStart i : WithBot Int) < t.earliestCompletion univ) :
    t.before (t.endMax.get i) ⊆ P := by
  intro k mem
  by_contra out
  have := ((aloof k out).endMax_le i).resolve_right (not_le.2 late)
  rw [mem_before] at mem
  omega

/-- Aloof tasks need not end by the end of a task, if it comes too early for some tasks. -/
theorem due_endMax_subset {P : Finset (Fin n)} (aloof : ∀ k, k ∉ P → t.Aloof k) {i : Fin n}
    (late : (t.endMax.get i : WithBot Int) < t.earliestCompletion univ) :
    t.due (t.endMax.get i) ⊆ P := by
  intro k mem
  by_contra out
  refine not_le.2 late ((aloof k out).completion_le.trans ?_)
  exact WithBot.coe_le_coe.2 (mem_due.1 mem)

/-! ## Bounds that leave room for sums -/

/-- Tasks that memory can hold, with durations that add up to an eighth of the words, and bounds in
the middle half of them. -/
structure Admissible (t : Tasks n) : Prop where
  room : n ≤ Memory.greatestSize
  duration_nonneg : ∀ i, 0 ≤ t.duration.get i
  sum_le : ∑ i, t.duration.get i ≤ Width.w64.greatest / 8
  le_startMin : ∀ i, -(Width.w64.greatest / 4) ≤ t.startMin.get i
  startMin_le : ∀ i, t.startMin.get i ≤ Width.w64.greatest / 4
  le_endMax : ∀ i, -(Width.w64.greatest / 4) ≤ t.endMax.get i
  endMax_le : ∀ i, t.endMax.get i ≤ Width.w64.greatest / 4

/-- Tasks of which none takes more than an eighth of the words, with bounds in the middle half. -/
structure Central (t : Tasks n) : Prop where
  duration_nonneg : ∀ i, 0 ≤ t.duration.get i
  duration_le : ∀ i, t.duration.get i ≤ Width.w64.greatest / 8
  le_startMin : ∀ i, -(Width.w64.greatest / 4) ≤ t.startMin.get i
  startMin_le : ∀ i, t.startMin.get i ≤ Width.w64.greatest / 4
  le_endMax : ∀ i, -(Width.w64.greatest / 4) ≤ t.endMax.get i
  endMax_le : ∀ i, t.endMax.get i ≤ Width.w64.greatest / 4

/-- Central tasks whose durations add up to at most half of the words, so that all completions are
words, with a tree whose nodes can be indexed. -/
structure Roomy (t : Tasks n) : Prop extends t.Central where
  depth_le : CompletionTree.depthFor n ≤ 63
  sum_le : ∑ i, t.duration.get i ≤ Width.w64.greatest / 2

theorem Central.fitting (h : t.Central) : Sweep.Fitting t := by
  intro i
  have := h.duration_nonneg i
  have := h.duration_le i
  have := h.le_startMin i
  have := h.startMin_le i
  have := h.le_endMax i
  have := h.endMax_le i
  simp only [Width.Holds, Width.least, Width.greatest] at *
  omega

theorem Admissible.roomy (h : t.Admissible) : t.Roomy :=
  { h with
    depth_le := CompletionTree.depthFor_le h.room
    duration_le := fun i => Int.le_trans
      (single_le_sum (fun j _ => h.duration_nonneg j) (mem_univ i)) h.sum_le
    sum_le := Int.le_trans h.sum_le (by decide) }

/-- Without an overload every task fits between its own bounds. -/
theorem earliestEnd_le_endMax (free : ¬ t.Overloaded) (i : Fin n) :
    t.earliestEnd i ≤ t.endMax.get i := by
  refine not_lt.1 fun late => free ⟨{i}, singleton_nonempty i, ?_⟩
  simpa [chainEnd, earliestEnd] using late

/-- Without an overload all tasks can be completed by the last of their latest ends. -/
theorem earliestCompletion_le_of_not_overloaded (free : ¬ t.Overloaded)
    (ends : ∀ i ∈ T, t.endMax.get i ≤ bound) : t.earliestCompletion T ≤ bound := by
  refine earliestCompletion_le_coe.2 fun O within some => ?_
  refine Int.le_trans (not_lt.1 fun late => free ⟨O, some, late⟩) ?_
  exact sup'_le some _ fun i inside => ends i (within inside)

namespace Roomy

variable (h : t.Roomy)
include h

theorem sum_le_of_subset (T : Finset (Fin n)) :
    ∑ i ∈ T, t.duration.get i ≤ Width.w64.greatest / 2 :=
  Int.le_trans (sum_le_sum_of_subset_of_nonneg (subset_univ T) fun i _ _ => h.duration_nonneg i)
    h.sum_le

theorem total : ∑ i, t.duration.get i ≤ Width.w64.greatest := by
  have := h.sum_le
  simp only [Width.greatest] at *
  omega

/-- Starts that are raised stay in the room for them. -/
theorem raised (free : ¬ t.Overloaded) : t.raised.Roomy :=
  { h with
    le_startMin := fun i => by
      rw [get_raised]
      exact Int.le_trans (h.le_startMin i) (t.startMin_le_raisedStart i)
    startMin_le := fun i => by
      rw [get_raised, raisedStart_le_iff]
      exact ⟨h.startMin_le i,
        earliestCompletion_le_of_not_overloaded free fun j _ => h.endMax_le j⟩ }

/-- Ends that are lowered stay in the room for them, if the latest starts are in it. -/
theorem lowered (starts : ∀ i, -(Width.w64.greatest / 4) ≤ t.latestStart i) :
    t.lowered.Roomy :=
  { h with
    le_endMax := fun i => by
      rw [get_lowered]
      rcases t.exists_latestStart_eq_loweredEnd i with same | ⟨j, eq⟩
      · rw [same]
        exact h.le_endMax i
      · rw [← eq]
        exact starts j
    endMax_le := fun i => by
      rw [get_lowered]
      exact Int.le_trans (t.loweredEnd_le i) (h.endMax_le i) }

theorem round (free : ¬ t.Overloaded) : t.round.Roomy := by
  refine (h.raised free).lowered fun i => ?_
  rw [latestStart_raised]
  have := earliestEnd_le_endMax free i
  have := h.le_startMin i
  unfold latestStart earliestEnd at *
  omega

end Roomy

end Tasks

end Scheduling
