import Mathlib.Algebra.BigOperators.Ring.Finset
import Mathlib.Data.Int.Interval
import Mathlib.Order.Interval.Finset.Basic
import Scheduling.Disjunctive.Machine
import Scheduling.Proofs.Disjunctive.Rounds

/-!
# The filter keeps every schedule

Tasks that take place one after the other within their bounds are a schedule. The filter finds no
conflict among tasks that have a schedule, and the schedule stays within the bounds that it leaves.
Tasks of optional intervals need not take place; they take part with an end that nothing reaches.

Results:
* `Tasks.Timely`: tasks on a timeline.
* `Tasks.Moderate`: few of them, so that their completions are words; kept by `Tasks.Moderate.round`.
* `Tasks.Moderate.aloof`: an end that nothing reaches pushes no task.
* `Schedule.add_sum_le`: tasks that follow each other fit between the first start and the last end.
* `Schedule.Within.not_overloaded`, `Schedule.Within.raised`, `Schedule.Within.lowered`: the three
  rules keep a schedule, as long as the tasks that need not take place push no other.
* `Schedule.Fits`: the tasks of which a schedule is one.
* `Schedule.Fits.exists_filter`: the filter.
-/

namespace Scheduling

open Finset

/-- Tasks that start within the horizon and take no longer than it lasts. They end within the
horizon, or have an end that nothing reaches. -/
structure Tasks.Timely {n : Nat} (t : Tasks n) : Prop where
  duration_nonneg : ∀ i, 0 ≤ t.duration.get i
  duration_le : ∀ i, t.duration.get i ≤ 2 * horizon
  le_startMin : ∀ i, -horizon ≤ t.startMin.get i
  startMin_le : ∀ i, t.startMin.get i ≤ horizon
  ends : ∀ i, t.endMax.get i = Machine.optionalEnd ∨
    -horizon ≤ t.endMax.get i ∧ t.endMax.get i ≤ horizon

theorem Tasks.Timely.central {n : Nat} {t : Tasks n} (h : t.Timely) : t.Central where
  duration_nonneg := h.duration_nonneg
  duration_le i := Int.le_trans (h.duration_le i) (by decide)
  le_startMin i := Int.le_trans (by decide) (h.le_startMin i)
  startMin_le i := Int.le_trans (h.startMin_le i) (by decide)
  le_endMax i := by
    rcases h.ends i with optional | ⟨least, -⟩
    · rw [optional]
      decide
    · exact Int.le_trans (by decide) least
  endMax_le i := by
    rcases h.ends i with optional | ⟨-, most⟩
    · rw [optional]
      decide
    · exact Int.le_trans most (by decide)

/-- Few tasks on a timeline. -/
structure Tasks.Moderate {n : Nat} (t : Tasks n) : Prop extends t.Timely where
  few : n < 2 ^ 30

namespace Tasks.Moderate

variable {n : Nat} {t : Tasks n} (h : t.Moderate)
include h

/-- All durations together are well below the end that nothing reaches. -/
theorem sum_le (T : Finset (Fin n)) : ∑ i ∈ T, t.duration.get i ≤ Width.w64.greatest / 8 := by
  have few := h.few
  have card : T.card ≤ n := by simpa using card_le_univ T
  calc ∑ i ∈ T, t.duration.get i ≤ ∑ i ∈ T, 2 * horizon := sum_le_sum fun i _ => h.duration_le i
    _ = T.card * (2 * horizon) := by simp
    _ ≤ Width.w64.greatest / 8 := by
      simp only [horizon, Width.greatest]
      have : (T.card : Int) < 2 ^ 30 := by exact_mod_cast Nat.lt_of_le_of_lt card few
      omega

theorem admissible : t.Admissible :=
  { h.central with
    room := Nat.le_of_lt (Nat.lt_trans h.few (by decide))
    sum_le := h.sum_le univ }

/-- No set of tasks is completed as late as the end that nothing reaches. -/
theorem earliestCompletion_le (T : Finset (Fin n)) :
    t.earliestCompletion T ≤ (horizon + Width.w64.greatest / 8 : Int) := by
  refine earliestCompletion_le_coe.2 fun O _ some => ?_
  obtain ⟨i, mem⟩ := some
  have first := O.inf'_le t.startMin.get mem
  have := h.startMin_le i
  have := h.sum_le O
  unfold chainEnd
  omega

/-- Tasks with an end that nothing reaches have a late latest start. -/
theorem le_latestStart {k : Fin n} (optional : t.endMax.get k = Machine.optionalEnd) :
    3 * horizon + Width.w64.greatest / 8 ≤ t.latestStart k := by
  have := h.duration_le k
  unfold latestStart
  simp only [optional, Machine.optionalEnd, horizon, Width.greatest] at *
  omega

/-- Tasks with an end that nothing reaches push no other. -/
theorem aloof {k : Fin n} (optional : t.endMax.get k = Machine.optionalEnd) : t.Aloof k where
  earliestEnd_le i := by
    have := h.startMin_le i
    have := h.duration_le i
    refine Int.le_trans ?_ (h.le_latestStart optional)
    unfold earliestEnd
    simp only [horizon, Width.greatest] at *
    omega
  endMax_le i := by
    rcases h.ends i with optional' | ⟨-, most⟩
    · refine .inr ((h.earliestCompletion_le univ).trans (WithBot.coe_le_coe.2 ?_))
      refine Int.le_trans ?_ (h.le_latestStart optional')
      simp only [horizon, Width.greatest]
      omega
    · refine .inl (Int.le_trans most (Int.le_trans ?_ (h.le_latestStart optional)))
      simp only [horizon, Width.greatest]
      omega
  completion_le := by
    refine (h.earliestCompletion_le univ).trans (WithBot.coe_le_coe.2 ?_)
    rw [optional]
    decide

/-- An end that nothing reaches stays. -/
theorem loweredEnd_eq {k : Fin n} (optional : t.endMax.get k = Machine.optionalEnd) :
    t.loweredEnd k = Machine.optionalEnd := by
  rw [← optional]
  refine loweredEnd_eq_endMax ((h.earliestCompletion_le _).trans (WithBot.coe_le_coe.2 ?_))
  refine Int.le_trans ?_ (h.le_latestStart optional)
  simp only [horizon, Width.greatest]
  omega

/-! ### Rounds -/

/-- A start is raised by tasks that end within the horizon. -/
theorem raised (free : ¬ t.Overloaded) : t.raised.Moderate :=
  { h with
    le_startMin := fun i => by
      rw [get_raised]
      exact Int.le_trans (h.le_startMin i) (t.startMin_le_raisedStart i)
    startMin_le := fun i => by
      rw [get_raised, raisedStart_le_iff]
      refine ⟨h.startMin_le i, earliestCompletion_le_of_not_overloaded free fun j mem => ?_⟩
      rcases h.ends j with optional | ⟨-, most⟩
      · have := (h.aloof optional).earliestEnd_le i
        rw [mem_before_erase] at mem
        omega
      · exact most }

theorem lowered (starts : ∀ i, -horizon ≤ t.latestStart i) : t.lowered.Moderate :=
  { h with
    ends := fun i => by
      rw [get_lowered]
      rcases h.ends i with optional | ⟨least, most⟩
      · exact .inl (h.loweredEnd_eq optional)
      · refine .inr ⟨?_, Int.le_trans (t.loweredEnd_le i) most⟩
        rcases t.exists_latestStart_eq_loweredEnd i with same | ⟨j, eq⟩
        · rw [same]
          exact least
        · rw [← eq]
          exact starts j }

theorem le_latestStart_of_free (free : ¬ t.Overloaded) (i : Fin n) :
    -horizon ≤ t.latestStart i := by
  have := earliestEnd_le_endMax free i
  have := h.le_startMin i
  unfold latestStart earliestEnd at *
  omega

theorem round (free : ¬ t.Overloaded) : t.round.Moderate :=
  (h.raised free).lowered (h.le_latestStart_of_free free)

/-- A round leaves the ends that nothing reaches. -/
theorem endMax_round {k : Fin n} (free : ¬ t.Overloaded)
    (optional : t.endMax.get k = Machine.optionalEnd) :
    t.round.endMax.get k = Machine.optionalEnd := by
  show t.raised.lowered.endMax.get k = _
  rw [get_lowered]
  exact (h.raised free).loweredEnd_eq optional

end Tasks.Moderate

/-- Times for the tasks that take place, one after the other. -/
structure Schedule (n : Nat) where
  placed : Finset (Fin n)
  start : Fin n → Int
  stop : Fin n → Int
  apart : ∀ i ∈ placed, ∀ j ∈ placed, i ≠ j → stop i ≤ start j ∨ stop j ≤ start i

namespace Schedule

variable {n : Nat} {S : Schedule n}

/-- Tasks that follow each other take no more than the time in which they take place. -/
theorem add_sum_le {T : Finset (Fin n)} {duration : Fin n → Int} {first last : Int}
    (placed : T ⊆ S.placed) (le : first ≤ last)
    (lasts : ∀ i ∈ T, S.start i + duration i ≤ S.stop i) (starts : ∀ i ∈ T, first ≤ S.start i)
    (stops : ∀ i ∈ T, S.stop i ≤ last) :
    first + ∑ i ∈ T, duration i ≤ last := by
  have disjoint : (T : Set (Fin n)).PairwiseDisjoint fun i => Ico (S.start i) (S.stop i) := by
    intro i mem j mem' differs
    refine Finset.disjoint_left.2 fun time inside inside' => ?_
    rw [mem_Ico] at inside inside'
    rcases S.apart i (placed mem) j (placed mem') differs with le | le <;> omega
  have within : (T.biUnion fun i => Ico (S.start i) (S.stop i)) ⊆ Ico first last := by
    intro time mem
    obtain ⟨i, mem, inside⟩ := mem_biUnion.1 mem
    have := starts i mem
    have := stops i mem
    rw [mem_Ico] at inside ⊢
    omega
  have count := card_le_card within
  rw [card_biUnion disjoint, Int.card_Ico] at count
  have each : ∑ i ∈ T, duration i ≤ ∑ i ∈ T, ((Ico (S.start i) (S.stop i)).card : Int) := by
    refine sum_le_sum fun i mem => ?_
    have := lasts i mem
    rw [Int.card_Ico]
    omega
  rw [← Nat.cast_sum] at each
  omega

/-! ## Rules and schedules -/

/-- The tasks that take place do so within their bounds. -/
structure Within (S : Schedule n) (t : Tasks n) : Prop where
  duration_nonneg : ∀ i, 0 ≤ t.duration.get i
  starts : ∀ i ∈ S.placed, t.startMin.get i ≤ S.start i
  lasts : ∀ i ∈ S.placed, S.start i + t.duration.get i ≤ S.stop i
  stops : ∀ i ∈ S.placed, S.stop i ≤ t.endMax.get i

namespace Within

variable {t : Tasks n} (h : S.Within t)
include h

/-- Tasks that take place can be completed when the last of them ends. -/
theorem earliestCompletion_le {T : Finset (Fin n)} {bound : Int} (placed : T ⊆ S.placed)
    (stops : ∀ i ∈ T, S.stop i ≤ bound) : t.earliestCompletion T ≤ bound := by
  refine Tasks.earliestCompletion_le_coe.2 fun O subset some => ?_
  have first (i : Fin n) (mem : i ∈ O) : O.inf' some t.startMin.get ≤ S.start i :=
    Int.le_trans (O.inf'_le _ mem) (h.starts i (placed (subset mem)))
  refine add_sum_le (subset.trans placed) ?_ (fun i mem => h.lasts i (placed (subset mem))) first
    fun i mem => stops i (subset mem)
  obtain ⟨i, mem⟩ := some
  have := first i mem
  have := h.lasts i (placed (subset mem))
  have := stops i (subset mem)
  have := h.duration_nonneg i
  omega

/-- A task that has to start before another one can end comes before it. -/
theorem stop_le_start {i j : Fin n} (mem : i ∈ S.placed) (mem' : j ∈ S.placed) (differs : j ≠ i)
    (early : t.latestStart j < t.earliestEnd i) : S.stop j ≤ S.start i := by
  refine (S.apart j mem' i mem differs).resolve_right fun le => ?_
  have := h.lasts j mem'
  have := h.stops j mem'
  have := h.starts i mem
  have := h.lasts i mem
  unfold Tasks.latestStart Tasks.earliestEnd at early
  omega

section Aloof

variable (aloof : ∀ k, k ∉ S.placed → t.Aloof k)
include aloof

theorem not_overloaded : ¬ t.Overloaded := by
  rw [Tasks.overloaded_iff]
  rintro ⟨i, late⟩
  have placed := Tasks.due_endMax_subset aloof
    (late.trans_le (Tasks.earliestCompletion_mono (subset_univ _)))
  refine not_le.2 late (h.earliestCompletion_le placed fun j mem => ?_)
  exact Int.le_trans (h.stops j (placed mem)) (Tasks.mem_due.1 mem)

/-- Detectable precedences keep the schedule. -/
theorem raised : S.Within t.raised :=
  { h with
    starts := fun i mem => by
      have placed := Tasks.before_earliestEnd_subset aloof i
      rw [Tasks.get_raised, Tasks.raisedStart_le_iff]
      refine ⟨h.starts i mem,
        h.earliestCompletion_le ((erase_subset _ _).trans placed) fun j inside => ?_⟩
      obtain ⟨differs, early⟩ := Tasks.mem_before_erase.1 inside
      exact h.stop_le_start mem (placed (mem_of_mem_erase inside)) differs early }

/-- The not-last rule keeps the schedule: some task comes after a task that is not last. -/
theorem lowered : S.Within t.lowered :=
  { h with
    stops := fun i mem => by
      rw [Tasks.get_lowered]
      by_cases late : (t.latestStart i : WithBot Int) <
          t.earliestCompletion ((t.before (t.endMax.get i)).erase i)
      · have placed := Tasks.before_endMax_subset aloof
          (late.trans_le (Tasks.earliestCompletion_mono (subset_univ _)))
        obtain ⟨j, inside, after⟩ : ∃ j ∈ (t.before (t.endMax.get i)).erase i,
            ¬ S.stop j ≤ t.latestStart i := by
          by_contra none
          push Not at none
          exact not_le.2 late (h.earliestCompletion_le ((erase_subset _ _).trans placed) none)
        obtain ⟨differs, early⟩ := Tasks.mem_before_erase.1 inside
        have mem' := placed (mem_of_mem_erase inside)
        have follows : S.stop i ≤ S.start j := by
          refine (S.apart j mem' i mem differs).resolve_left fun le => after ?_
          have := h.lasts i mem
          have := h.stops i mem
          unfold Tasks.latestStart
          omega
        refine Int.le_trans ?_ ((Tasks.isGreatest_loweredEnd late).2 ⟨j, rfl, early⟩)
        have := h.lasts j mem'
        have := h.stops j mem'
        unfold Tasks.latestStart
        omega
      · rw [Tasks.loweredEnd_eq_endMax (not_lt.1 late)]
        exact h.stops i mem }

end Aloof

end Within

/-- The schedule lies within the bounds of the tasks. Those that need not take place have an end
that nothing reaches. -/
structure Fits (S : Schedule n) (t : Tasks n) : Prop where
  few : n < 2 ^ 30
  duration_nonneg : ∀ i, 0 ≤ t.duration.get i
  duration_le : ∀ i, t.duration.get i ≤ 2 * horizon
  le_startMin : ∀ i, -horizon ≤ t.startMin.get i
  startMin_le : ∀ i, t.startMin.get i ≤ horizon
  ends : ∀ i, t.endMax.get i = Machine.optionalEnd ∨ i ∈ S.placed ∧ t.endMax.get i ≤ horizon
  starts : ∀ i ∈ S.placed, t.startMin.get i ≤ S.start i
  lasts : ∀ i ∈ S.placed, S.start i + t.duration.get i ≤ S.stop i
  stops : ∀ i ∈ S.placed, S.stop i ≤ t.endMax.get i
  stop_le : ∀ i ∈ S.placed, S.stop i ≤ horizon

namespace Fits

variable {t : Tasks n}

theorem moderate (h : S.Fits t) : t.Moderate := { h with
  ends := fun i => (h.ends i).imp_right fun ⟨mem, le⟩ => by
    have := h.starts i mem
    have := h.lasts i mem
    have := h.stops i mem
    have := h.duration_nonneg i
    have := h.le_startMin i
    exact ⟨by omega, le⟩ }

theorem within (h : S.Fits t) : S.Within t := { h with }

theorem aloof (h : S.Fits t) (k : Fin n) (out : k ∉ S.placed) : t.Aloof k :=
  h.moderate.aloof ((h.ends k).resolve_right fun ⟨mem, _⟩ => out mem)

theorem not_overloaded (h : S.Fits t) : ¬ t.Overloaded := h.within.not_overloaded h.aloof

/-- A round keeps the schedule. -/
theorem round (h : S.Fits t) : S.Fits t.round := by
  have free := h.not_overloaded
  have moderate := h.moderate.raised free
  have raised := h.within.raised h.aloof
  have lowered := raised.lowered fun k out =>
    moderate.aloof ((h.ends k).resolve_right fun ⟨mem, _⟩ => out mem)
  exact { h.moderate.round free, lowered with
    stop_le := h.stop_le
    ends := fun i => (h.ends i).imp (h.moderate.endMax_round free) fun ⟨mem, le⟩ =>
      ⟨mem, Int.le_trans (t.tighter_round.endMax i) le⟩ }

/-- The filter finds no conflict among tasks with a schedule, and the schedule stays. -/
theorem exists_filter (h : S.Fits t) :
    ∃ verdict filtered, t.filter = .ok (verdict, filtered) ∧ verdict ≠ .infeasible ∧
      S.Fits filtered := by
  obtain ⟨r, filters, ran⟩ := Tasks.exists_filter_eq h.moderate.admissible.roomy
  obtain ⟨t', rfl, fits⟩ := filters.exists_of_invariant (fun _ h => not_overloaded h)
    (fun _ h => round h) h
  exact ⟨_, t', ran, Tasks.outcome_some_ne_infeasible, fits⟩

end Fits

end Schedule

end Scheduling
