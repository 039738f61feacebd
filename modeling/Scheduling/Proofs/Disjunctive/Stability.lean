import Scheduling.Proofs.Disjunctive.Selection
import Scheduling.Proofs.Disjunctive.Sequencing

/-!
# Filters that find no conflict

However many tasks there are, a filter that finds no conflict has let all of them into its tree, and
has read off it that they can be completed early enough. So the nodes of the tree can be indexed, the
durations do not add up to too much, and what the filter has come to follows from the tasks alone.

Results:
* `Sweep.Holds.fitsAll`: the tree that the overload rule leaves if all tasks fit.
* `Tasks.Central.roomy_of_filter`: a filter that finds no conflict has had room.
* `Tasks.Central.exists_filters`: what it has come to.
* `Tasks.Stable`: no rule asks for anything; `Tasks.stable_iff`: there is no overload, and a round
  moves no bound.
* `Tasks.filter_of_stable`: the filter leaves stable tasks as they are.
-/

namespace Scheduling

open Finset

/-! ## Room for the tasks -/

namespace Sweep

variable {n : Nat} {s : Sweep n} {bound : Int}

/-- If all remaining tasks fit, then the tree that holds them as well is completed by the last of
their ends, and their nodes can be indexed. -/
theorem Holds.fitsAll {rest : List (Fin n)} {tree : CompletionTree} {T : Finset (Fin n)}
    {completion : Int} (h : s.Holds tree T) (derived : s.Derived)
    (fits : s.fitsAll tree rest = .ok true) (ends : ∀ i ∈ rest, s.endMax.get i ≤ bound)
    (known : tree.completion = .ok completion) (early : completion ≤ bound) :
    (∀ i ∈ rest, 2 ^ CompletionTree.depthFor n - 1 + s.rank.get i < Memory.indices) ∧
      ∃ tree' completion', s.Holds tree' (T ∪ rest.toFinset) ∧
        tree'.completion = .ok completion' ∧ completion' ≤ bound := by
  induction rest generalizing tree T completion with
  | nil => exact ⟨by simp, tree, completion, by simpa using h, known, early⟩
  | cons i rest ih =>
    obtain ⟨tree', inserted, fits⟩ := bind_eq_ok_iff.1 fits
    obtain ⟨completion', known', fits⟩ := bind_eq_ok_iff.1 fits
    split at fits
    · cases fits
    rename_i inTime
    have inTime : ¬ completion' > s.endMax.get i := inTime
    have due := ends i List.mem_cons_self
    obtain ⟨holds, indexed⟩ := h.insert derived inserted
    obtain ⟨others, last, latest, holds', reached, early'⟩ := ih holds fits
      (fun j mem => ends j (List.mem_cons_of_mem _ mem)) known' (by omega)
    refine ⟨fun j mem => ?_, last, latest, ?_, reached, early'⟩
    · rcases List.mem_cons.1 mem with rfl | mem
      · exact indexed
      · exact others j mem
    · rwa [List.toFinset_cons, union_insert, ← insert_union]

/-- If there is no overload, the tree of all tasks is completed by the last of their ends, and all
nodes can be indexed. -/
theorem exists_holds_univ (derived : s.Derived) (free : s.isOverloadFree = .ok true)
    (ends : ∀ i, s.endMax.get i ≤ bound) (floor : Width.w64.least ≤ bound) :
    (∀ i, 2 ^ CompletionTree.depthFor n - 1 + s.rank.get i < Memory.indices) ∧
      ∃ tree completion, s.Holds tree univ ∧ tree.completion = .ok completion ∧
        completion ≤ bound := by
  obtain ⟨indexed, tree, completion, holds, known, early⟩ := s.holds_reset.fitsAll derived free
    (fun i _ => ends i) (CompletionTree.completion_reset n) floor
  have mem (i : Fin n) : i ∈ s.orders.byEndMax :=
    derived.complete.byEndMax.mem_iff.2 (List.mem_finRange i)
  refine ⟨fun i => indexed i (mem i), tree, completion, ?_, known, early⟩
  rwa [eq_univ_of_forall fun i => mem_union_right _ (List.mem_toFinset.2 (mem i))] at holds

end Sweep

namespace Tasks

namespace Central

variable {n : Nat} {t t' : Tasks n} {verdict : Verdict} (h : t.Central)
include h

/-- The first task and those that follow it are completed by the last end, so that their durations
do not add up to more than there is between the bounds; and of two tasks, one has a node after that
of the first leaf. -/
theorem roomy_of_filter (ran : t.filter = .ok (verdict, t')) (feasible : verdict ≠ .infeasible) :
    t.Roomy := by
  obtain ⟨s, opened, free⟩ := exists_ofTasks_of_filter ran feasible
  obtain ⟨s', opened', rfl, derived⟩ := Sweep.exists_ofTasks h.fitting (Orders.complete_initial n)
  obtain rfl : s' = s := by simpa [opened] using opened'.symm
  obtain ⟨indexed, tree, completion, holds, known, early⟩ :=
    Sweep.exists_holds_univ derived free h.endMax_le (by decide)
  refine { h with depth_le := ?_, sum_le := ?_ }
  · rcases Nat.lt_or_ge 1 n with several | single
    · obtain ⟨i, later⟩ : ∃ i, 1 ≤ s'.rank.get i := by
        by_contra none
        push Not at none
        have := derived.rank_inj ⟨0, by omega⟩ ⟨1, several⟩ (by
          have := none ⟨0, by omega⟩
          have := none ⟨1, several⟩
          omega)
        simp at this
      have := indexed i
      have : 2 ^ CompletionTree.depthFor n < 2 ^ 64 := by
        simp only [Memory.indices] at this
        omega
      exact Nat.le_of_lt_succ ((Nat.pow_lt_pow_iff_right (by decide)).1 this)
    · simp [CompletionTree.depthFor, single]
  · rcases isEmpty_or_nonempty (Fin n) with none | some
    · simp [Width.greatest]
    · obtain ⟨j, -, first⟩ := exists_min_image univ s'.rank.get univ_nonempty
      have all : univ.filter (fun i => s'.rank.get j ≤ s'.rank.get i) = univ :=
        filter_true_of_mem first
      by_contra much
      have := h.le_startMin j
      have := holds.le_completion derived h.duration_nonneg known (mem_univ j)
        (x := Width.w64.greatest / 4 + 1) (by
          rw [all]
          simp only [Width.greatest] at *
          omega) (by decide)
      omega

/-- A filter that finds no conflict has come to tasks of which the rules move no bound. -/
theorem exists_filters (ran : t.filter = .ok (verdict, t')) (feasible : verdict ≠ .infeasible) :
    ∃ u, t.Filters (some u) ∧ t.outcome (some u) = (verdict, t') := by
  obtain ⟨r, filters, ran'⟩ := exists_filter_eq (h.roomy_of_filter ran feasible)
  rw [ran] at ran'
  cases r with
  | none =>
    cases ran'
    exact absurd rfl feasible
  | some u => exact ⟨u, filters, (Except.ok.inj ran').symm⟩

end Central

/-! ## Tasks that the filter leaves as they are -/

variable {n : Nat} {t t' : Tasks n}

/-- The rules ask for nothing: the tasks that have to end by the end of a task are completed by it;
those that have to precede a task are completed before it starts; and those that have to start
before a task ends are completed before its latest start. -/
structure Stable (t : Tasks n) : Prop where
  fits : ∀ i, t.CompletesBy (t.due (t.endMax.get i)) (t.endMax.get i)
  starts : ∀ i, t.CompletesBy ((t.before (t.startMin.get i + t.duration.get i)).erase i)
    (t.startMin.get i)
  ends : ∀ i, t.CompletesBy ((t.before (t.endMax.get i)).erase i)
    (t.endMax.get i - t.duration.get i)

theorem raised_eq_self_iff_forall : t.raised = t ↔ ∀ i, t.earliestCompletion
    ((t.before (t.earliestEnd i)).erase i) ≤ t.startMin.get i := by
  rw [raised_eq_self_iff]
  constructor
  · intro same i
    have := raisedStart_le_iff.1 (Int.le_of_eq (t.get_raised i).symm)
    rw [same] at this
    exact this.2
  · intro early
    refine Scheduling.eq_of_get fun i => ?_
    rw [get_raised]
    refine Int.le_antisymm ?_ (t.startMin_le_raisedStart i)
    exact raisedStart_le_iff.2 ⟨Int.le_refl _, early i⟩

theorem lowered_eq_self_iff_forall : t.lowered = t ↔ ∀ i, t.earliestCompletion
    ((t.before (t.endMax.get i)).erase i) ≤ t.latestStart i := by
  simp only [← loweredEnd_eq_endMax_iff, ← get_lowered]
  refine ⟨fun same i => by rw [same], fun same => ?_⟩
  rw [show t.lowered = { t with endMax := t.lowered.endMax } from rfl, Scheduling.eq_of_get same]

/-- Tasks are stable if there is no overload, and a round moves no bound. -/
theorem stable_iff (nonneg : ∀ i, 0 ≤ t.duration.get i) :
    t.Stable ↔ ¬ t.Overloaded ∧ t.round = t := by
  have round : t.round = t ↔ t.raised = t ∧ t.lowered = t := by
    constructor
    · intro same
      have raised : t.raised = t :=
        raised_eq_self_iff.2 (show t.round.startMin = t.startMin by rw [same])
      exact ⟨raised, by rwa [Tasks.round, raised] at same⟩
    · rintro ⟨raised, lowered⟩
      rw [Tasks.round, raised, lowered]
  rw [round, raised_eq_self_iff_forall, lowered_eq_self_iff_forall, overloaded_iff]
  push Not
  simp only [← completesBy_iff nonneg]
  exact ⟨fun stable => ⟨stable.fits, stable.starts, stable.ends⟩,
    fun ⟨fits, starts, ends⟩ => ⟨fits, starts, ends⟩⟩

/-- The filter leaves stable tasks as they are. -/
theorem filter_of_stable (roomy : t.Roomy) (stable : t.Stable) :
    t.filter = .ok (.unchanged, t) := by
  obtain ⟨free, same⟩ := (stable_iff roomy.duration_nonneg).1 stable
  obtain ⟨r, filters, ran⟩ := exists_filter_eq roomy
  obtain rfl := filters.unique (.settled free same)
  rw [ran, outcome_self]

end Tasks

end Scheduling
