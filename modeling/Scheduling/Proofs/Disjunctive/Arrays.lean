import Scheduling.Proofs.Disjunctive.Selection
import Scheduling.Proofs.Disjunctive.Sequencing

/-!
# Filtering the first entries of arrays

The filter works on arrays of which the first entries are tasks. It comes to an end, leaves the other
entries alone, and says what it has done to the tasks; it keeps every schedule; it finds nothing more
to do when it is called again; and it finds the same when the tasks come in another order.

Results:
* `Begins`: the first entries of an array.
* `filterArrays_eq`: the filter of arrays is the filter of their tasks.
* `filterArrays_ends_soundly`: how the filter ends.
* `filterArrays_idempotent_equivariant`: a second call, and another order of the tasks.
-/

namespace Scheduling

open Finset

variable {n : Nat}

/-! ## The first entries of an array -/

/-- The first entries of the array are those of the vector. -/
def Begins (a : Array Int) (v : Vector Int n) : Prop := ∀ i : Fin n, a[i.val]? = some (v.get i)

instance (a : Array Int) (v : Vector Int n) : Decidable (Begins a v) :=
  inferInstanceAs (Decidable (∀ _, _))

section Entries

variable {a : Array Int} {v : Vector Int n}

theorem Begins.le_size (h : Begins a v) : n ≤ a.size := by
  cases n with
  | zero => exact Nat.zero_le _
  | succ n =>
    obtain ⟨lt, -⟩ := Array.getElem?_eq_some_iff.1 (h (Fin.last n))
    exact lt

theorem takeEntries_eq (h : Begins a v) : takeEntries a n = .ok v := by
  rw [takeEntries, if_pos h.le_size]
  congr 1
  refine eq_of_get fun i => ?_
  rw [get_ofFn, Array.getD_eq_getD_getElem?, h i]
  rfl

theorem getElem?_putEntries (le : n ≤ a.size) (v : Vector Int n) (k : Nat) :
    (putEntries a v)[k]? = if h : k < n then some (v.get ⟨k, h⟩) else a[k]? := by
  unfold putEntries
  rw [Array.getElem?_append]
  simp only [Vector.size_toArray]
  split
  · rename_i lt
    rw [Vector.getElem?_toArray, Vector.getElem?_eq_getElem lt]
    rfl
  · rename_i ge
    rw [Array.getElem?_extract]
    have := Nat.not_lt.1 ge
    by_cases inside : k < a.size
    · rw [if_pos (by omega), Nat.add_sub_cancel' this]
    · rw [if_neg (by omega), Array.getElem?_eq_none (Nat.not_lt.1 inside)]

theorem begins_putEntries (le : n ≤ a.size) (v : Vector Int n) : Begins (putEntries a v) v := by
  intro i
  rw [getElem?_putEntries le, dif_pos i.isLt]

/-- Later entries stay. -/
theorem getElem?_putEntries_of_le (le : n ≤ a.size) (v : Vector Int n) {k : Nat} (later : n ≤ k) :
    (putEntries a v)[k]? = a[k]? := by
  rw [getElem?_putEntries le, dif_neg (Nat.not_lt.2 later)]

theorem putEntries_eq_self (h : Begins a v) : putEntries a v = a := by
  refine Array.ext_getElem? fun k => ?_
  rw [getElem?_putEntries h.le_size]
  split
  · exact (h ⟨k, ‹_›⟩).symm
  · rfl

end Entries

/-! ## The tasks of arrays -/

/-- The tasks are given by the first entries of three arrays. -/
structure Tasks.InArrays (t : Tasks n) (startMin duration endMax : Array Int) : Prop where
  startMin : Begins startMin t.startMin
  duration : Begins duration t.duration
  endMax : Begins endMax t.endMax

section Filter

variable {startMin duration endMax : Array Int} {t t' : Tasks n} {verdict : Verdict}

/-- The filter of arrays filters the tasks that they begin with. -/
theorem filterArrays_eq (arrays : t.InArrays startMin duration endMax)
    (ran : t.filter = .ok (verdict, t')) : filterArrays startMin duration endMax n =
      .ok (verdict, putEntries startMin t'.startMin, putEntries endMax t'.endMax) := by
  rw [filterArrays, takeEntries_eq arrays.startMin, takeEntries_eq arrays.duration,
    takeEntries_eq arrays.endMax]
  simp only [bind, Except.bind, ran]
  rfl

/-- The arrays begin with the filtered tasks. -/
theorem Tasks.InArrays.put (arrays : t.InArrays startMin duration endMax)
    (same : t'.duration = t.duration) :
    t'.InArrays (putEntries startMin t'.startMin) duration (putEntries endMax t'.endMax) where
  startMin := begins_putEntries arrays.startMin.le_size _
  duration := same ▸ arrays.duration
  endMax := begins_putEntries arrays.endMax.le_size _

/-- The times of all tasks as a schedule. -/
def Schedule.ofTimes (start stop : Fin n → Int)
    (apart : ∀ i j, i ≠ j → stop i ≤ start j ∨ stop j ≤ start i) : Schedule n where
  placed := univ
  start
  stop
  apart i _ j _ differs := apart i j differs

/-- The rounds find no overload among tasks that can all take place within their bounds, and keep
the times at which they do. -/
theorem Schedule.Within.exists_of_filters {S : Schedule n} {r : Option (Tasks n)}
    (h : S.Within t) (all : ∀ k, k ∈ S.placed) (filters : Tasks.Filters t r) :
    ∃ t', r = some t' ∧ S.Within t' := by
  refine filters.exists_of_invariant (fun u within => ?_) (fun u within => ?_) h
  · exact within.not_overloaded fun k out => absurd (all k) out
  · exact (within.raised fun k out => absurd (all k) out).lowered fun k out => absurd (all k) out

/-- The filter ends, and how: arrays that begin with tasks whose bounds and durations leave room for
sums are filtered, unless no tasks in these bounds could take place one after the other, and every
choice of such times stays within the bounds. If a change is reported, some bound has moved, all that
have moved are tighter, and every task still has the time for it. Otherwise both arrays are as
before. Later entries stay in any case. -/
theorem filterArrays_ends_soundly (arrays : t.InArrays startMin duration endMax)
    (h : t.Admissible) : ∃ (verdict : Verdict) (startMin' endMax' : Array Int) (t' : Tasks n),
      filterArrays startMin duration endMax n = .ok (verdict, startMin', endMax') ∧
      t'.InArrays startMin' duration endMax' ∧
      (∀ k, n ≤ k → startMin'[k]? = startMin[k]? ∧ endMax'[k]? = endMax[k]?) ∧
      (verdict ≠ .changed → startMin' = startMin ∧ endMax' = endMax) ∧
      (verdict = .changed →
        (∃ i, t'.startMin.get i ≠ t.startMin.get i ∨ t'.endMax.get i ≠ t.endMax.get i) ∧
        ∀ i, t.startMin.get i ≤ t'.startMin.get i ∧ t'.endMax.get i ≤ t.endMax.get i ∧
          t'.startMin.get i + t.duration.get i ≤ t'.endMax.get i) ∧
      ∀ start stop : Fin n → Int,
        (∀ i, t.startMin.get i ≤ start i ∧ stop i ≤ t.endMax.get i ∧
          t.duration.get i ≤ stop i - start i) →
        (∀ i j, i ≠ j → stop i ≤ start j ∨ stop j ≤ start i) →
        verdict ≠ .infeasible ∧ ∀ i, t'.startMin.get i ≤ start i ∧ stop i ≤ t'.endMax.get i := by
  obtain ⟨r, filters, ran⟩ := Tasks.exists_filter_eq h.roomy
  have same : (t.outcome r).2.duration = t.duration := by
    cases r with
    | none => rfl
    | some t' => exact filters.duration_eq
  refine ⟨(t.outcome r).1, putEntries startMin (t.outcome r).2.startMin,
    putEntries endMax (t.outcome r).2.endMax, (t.outcome r).2, filterArrays_eq arrays ran,
    arrays.put same, fun k later => ?_, fun still => ?_, fun changed => ?_,
    fun start stop inside apart => ?_⟩
  · exact ⟨getElem?_putEntries_of_le arrays.startMin.le_size _ later,
      getElem?_putEntries_of_le arrays.endMax.le_size _ later⟩
  · rw [Tasks.outcome_eq_of_ne_changed still]
    exact ⟨putEntries_eq_self arrays.startMin, putEntries_eq_self arrays.endMax⟩
  · obtain ⟨t', rfl, moved⟩ := Tasks.exists_of_outcome_changed changed
    refine ⟨?_, fun i => ⟨filters.tighter.startMin i, filters.tighter.endMax i, ?_⟩⟩
    · by_contra none
      push Not at none
      exact moved (Tasks.eq_of_get (fun i => (none i).1) (fun i => by rw [filters.duration_eq])
        fun i => (none i).2)
    · rw [← filters.duration_eq]
      exact Tasks.earliestEnd_le_endMax filters.settles.1 i
  · have within : (Schedule.ofTimes start stop apart).Within t := {
      duration_nonneg := h.duration_nonneg
      starts := fun i _ => (inside i).1
      lasts := fun i _ => by
        have := (inside i).2.2
        show start i + t.duration.get i ≤ stop i
        omega
      stops := fun i _ => (inside i).2.1 }
    obtain ⟨t', rfl, within'⟩ := within.exists_of_filters mem_univ filters
    exact ⟨Tasks.outcome_some_ne_infeasible,
      fun i => ⟨within'.starts i (mem_univ i), within'.stops i (mem_univ i)⟩⟩

/-- The first three entries are tasks that can only take place one way round at the end: the first one
before the others. -/
theorem filterArrays_ends_soundly_three :
    Sweep.threeTasks.InArrays #[0, 1, 1, 7] #[2, 5, 5, 100] #[11, 12, 12, 3] ∧
      Sweep.threeTasks.Admissible ∧
      filterArrays #[0, 1, 1, 7] #[2, 5, 5, 100] #[11, 12, 12, 3] 3 =
        .ok (.changed, #[0, 2, 2, 7], #[7, 12, 12, 3]) ∧
      ∃ t' : Tasks 3, t'.InArrays #[0, 2, 2, 7] #[2, 5, 5, 100] #[7, 12, 12, 3] ∧
        (∃ i, t'.startMin.get i ≠ Sweep.threeTasks.startMin.get i ∨
          t'.endMax.get i ≠ Sweep.threeTasks.endMax.get i) ∧
        ∀ i, t'.startMin.get i ≤ #v[0, 2, 7].get i ∧ #v[2, 7, 12].get i ≤ t'.endMax.get i := by
  have arrays : Sweep.threeTasks.InArrays #[0, 1, 1, 7] #[2, 5, 5, 100] #[11, 12, 12, 3] :=
    ⟨by decide, by decide, by decide⟩
  have ran : filterArrays #[0, 1, 1, 7] #[2, 5, 5, 100] #[11, 12, 12, 3] 3 =
      .ok (.changed, #[0, 2, 2, 7], #[7, 12, 12, 3]) := by cbv
  obtain ⟨verdict, startMin', endMax', t', ran', arrays', -, -, changed, sound⟩ :=
    filterArrays_ends_soundly arrays Sweep.admissible_threeTasks
  cases ran.symm.trans ran'
  exact ⟨arrays, Sweep.admissible_threeTasks, ran, t', arrays', (changed rfl).1,
    (sound #v[0, 2, 7].get #v[2, 7, 12].get (by decide) (by decide)).2⟩

/-- The bounds that the filter leaves are left as they are by another call, from whatever orders of
the tasks its sweeps start; and if the tasks come in another order, the filter finds the same, and
the same bounds in that order. -/
theorem filterArrays_idempotent_equivariant (arrays : t.InArrays startMin duration endMax)
    (h : t.Admissible) : ∃ (verdict : Verdict) (startMin' endMax' : Array Int),
      filterArrays startMin duration endMax n = .ok (verdict, startMin', endMax') ∧
      (verdict ≠ .infeasible →
        filterArrays startMin' duration endMax' n = .ok (.unchanged, startMin', endMax') ∧
        ∃ t' : Tasks n, t'.InArrays startMin' duration endMax' ∧ ∀ orders : Orders n,
          orders.Complete → t'.filterLoop (Tasks.rounds n) false orders = .ok (.unchanged, t')) ∧
      ∀ (σ : Equiv.Perm (Fin n)) (startMin₂ duration₂ endMax₂ : Array Int),
        (∀ i : Fin n, startMin₂[i.val]? = startMin[(σ i).val]? ∧
          duration₂[i.val]? = duration[(σ i).val]? ∧ endMax₂[i.val]? = endMax[(σ i).val]?) →
        ∃ startMin₂' endMax₂',
          filterArrays startMin₂ duration₂ endMax₂ n = .ok (verdict, startMin₂', endMax₂') ∧
          ∀ i : Fin n, startMin₂'[i.val]? = startMin'[(σ i).val]? ∧
            endMax₂'[i.val]? = endMax'[(σ i).val]? := by
  obtain ⟨r, filters, ran⟩ := Tasks.exists_filter_eq h.roomy
  refine ⟨(t.outcome r).1, putEntries startMin (t.outcome r).2.startMin,
    putEntries endMax (t.outcome r).2.endMax, filterArrays_eq arrays ran, fun feasible => ?_,
    fun σ startMin₂ duration₂ endMax₂ permuted => ?_⟩
  · cases r with
    | none => exact absurd rfl feasible
    | some t' =>
      have settled := filters.settles
      have roomy := filters.roomy h.roomy
      have arrays' := arrays.put filters.duration_eq
      refine ⟨?_, t', arrays', fun orders complete => ?_⟩
      · obtain ⟨r', filters', ran'⟩ := Tasks.exists_filter_eq roomy
        obtain rfl := filters'.unique (.settled settled.1 settled.2)
        rw [Tasks.outcome_self] at ran'
        exact (filterArrays_eq arrays' ran').trans (by
          rw [putEntries_eq_self arrays'.startMin, putEntries_eq_self arrays'.endMax]
          rfl)
      · obtain ⟨orders', -, looped⟩ := Tasks.exists_filterLoop_eq roomy complete
        rw [Tasks.rounds, looped, if_neg settled.1, if_pos settled.2]
        rfl
  · have arrays₂ : (t.select σ.toEmbedding).InArrays startMin₂ duration₂ endMax₂ := {
      startMin := fun i => by
        rw [(permuted i).1, arrays.startMin, Tasks.startMin_select]
        rfl
      duration := fun i => by
        rw [(permuted i).2.1, arrays.duration, Tasks.duration_select]
        rfl
      endMax := fun i => by
        rw [(permuted i).2.2, arrays.endMax, Tasks.endMax_select]
        rfl }
    have all (k : Fin n) : k ∈ univ.map σ.toEmbedding :=
      mem_map.2 ⟨σ.symm k, mem_univ _, σ.apply_symm_apply k⟩
    obtain ⟨r', filters', ran'⟩ := Tasks.exists_filter_eq (h.roomy.select σ.toEmbedding)
    obtain rfl := filters'.unique (filters.reindex all)
    rw [Tasks.outcome_select all] at ran'
    refine ⟨_, _, filterArrays_eq arrays₂ ran', fun i => ⟨?_, ?_⟩⟩
    · rw [begins_putEntries arrays₂.startMin.le_size, begins_putEntries arrays.startMin.le_size,
        Tasks.startMin_select]
      rfl
    · rw [begins_putEntries arrays₂.endMax.le_size, begins_putEntries arrays.endMax.le_size,
        Tasks.endMax_select]
      rfl

/-- The three tasks are filtered, filtered again, and filtered in another order. -/
theorem filterArrays_idempotent_equivariant_three :
    Sweep.threeTasks.InArrays #[0, 1, 1, 7] #[2, 5, 5, 100] #[11, 12, 12, 3] ∧
      Sweep.threeTasks.Admissible ∧
      filterArrays #[0, 1, 1, 7] #[2, 5, 5, 100] #[11, 12, 12, 3] 3 =
        .ok (.changed, #[0, 2, 2, 7], #[7, 12, 12, 3]) ∧
      filterArrays #[0, 2, 2, 7] #[2, 5, 5, 100] #[7, 12, 12, 3] 3 =
        .ok (.unchanged, #[0, 2, 2, 7], #[7, 12, 12, 3]) ∧
      ∃ startMin' endMax', filterArrays #[1, 1, 0] #[5, 5, 2] #[12, 12, 11] 3 =
          .ok (.changed, startMin', endMax') ∧
        ∀ i : Fin 3, startMin'[i.val]? = #[0, 2, 2, 7][(Equiv.swap (0 : Fin 3) 2 i).val]? ∧
          endMax'[i.val]? = #[7, 12, 12, 3][(Equiv.swap (0 : Fin 3) 2 i).val]? := by
  have arrays : Sweep.threeTasks.InArrays #[0, 1, 1, 7] #[2, 5, 5, 100] #[11, 12, 12, 3] :=
    ⟨by decide, by decide, by decide⟩
  have ran : filterArrays #[0, 1, 1, 7] #[2, 5, 5, 100] #[11, 12, 12, 3] 3 =
      .ok (.changed, #[0, 2, 2, 7], #[7, 12, 12, 3]) := by cbv
  obtain ⟨verdict, startMin', endMax', ran', again, permuted⟩ :=
    filterArrays_idempotent_equivariant arrays Sweep.admissible_threeTasks
  cases ran.symm.trans ran'
  exact ⟨arrays, Sweep.admissible_threeTasks, ran, (again (by decide)).1,
    permuted (Equiv.swap 0 2) #[1, 1, 0] #[5, 5, 2] #[12, 12, 11] (by decide)⟩

end Filter

end Scheduling
