import Scheduling.Proofs.Disjunctive.Sweeping

/-!
# The rounds of the filter

The filter repeats the rules until it finds an overload or nothing moves any more. Bounds move in one
direction only, so that it comes to an end; and what it then leaves follows from the tasks alone.

Results:
* `Tasks.Filters`: what the rounds come to; it is unique (`Tasks.Filters.unique`).
* `Tasks.slack_round_lt`: a round that moves a bound reduces the slack.
* `Tasks.exists_filterLoop`, `Tasks.exists_filter_eq`: the filter comes to an end, with the tasks
  that its rounds come to.
-/

namespace Scheduling

open Finset

namespace Tasks

variable {n : Nat} {t t' : Tasks n} {r r' : Option (Tasks n)}

/-! ## Bounds move in one direction -/

/-- The bounds of the second tasks are no wider. -/
structure Tighter (t t' : Tasks n) : Prop where
  startMin : ∀ i, t.startMin.get i ≤ t'.startMin.get i
  endMax : ∀ i, t'.endMax.get i ≤ t.endMax.get i

theorem Tighter.refl (t : Tasks n) : t.Tighter t := ⟨fun _ => Int.le_refl _, fun _ => Int.le_refl _⟩

theorem Tighter.trans {u : Tasks n} (h : t.Tighter t') (h' : t'.Tighter u) : t.Tighter u :=
  ⟨fun i => Int.le_trans (h.startMin i) (h'.startMin i),
    fun i => Int.le_trans (h'.endMax i) (h.endMax i)⟩

/-- A round tightens the bounds. -/
theorem tighter_round (t : Tasks n) : t.Tighter t.round where
  startMin i := by
    show t.startMin.get i ≤ t.raised.startMin.get i
    rw [get_raised]
    exact t.startMin_le_raisedStart i
  endMax i := by
    show t.raised.lowered.endMax.get i ≤ t.raised.endMax.get i
    rw [get_lowered]
    exact t.raised.loweredEnd_le i

/-- The time between earliest starts and latest ends, which the rules reduce. -/
def slack (t : Tasks n) : Int := ∑ i, (t.endMax.get i - t.startMin.get i)

theorem Tighter.slack_le (h : t.Tighter t') : t'.slack ≤ t.slack :=
  sum_le_sum fun i _ => by
    have := h.startMin i
    have := h.endMax i
    omega

/-- A round that moves a bound reduces the slack. -/
theorem slack_round_lt (moves : t.round ≠ t) : t.round.slack < t.slack := by
  have tighter := t.tighter_round
  obtain ⟨i, lt⟩ : ∃ i, t.round.endMax.get i - t.round.startMin.get i <
      t.endMax.get i - t.startMin.get i := by
    rcases round_ne_self_iff.1 moves with moved | moved
    · obtain ⟨i, ne⟩ := ne_iff_exists_get_ne.1 moved
      have := tighter.startMin i
      have := tighter.endMax i
      change t.round.startMin.get i ≠ _ at ne
      exact ⟨i, by omega⟩
    · obtain ⟨i, ne⟩ := ne_iff_exists_get_ne.1 moved
      have := tighter.startMin i
      have := tighter.endMax i
      exact ⟨i, by omega⟩
  refine sum_lt_sum (fun j _ => ?_) ⟨i, mem_univ i, lt⟩
  have := tighter.startMin j
  have := tighter.endMax j
  omega

/-- Without an overload there is no task without time for it. -/
theorem slack_nonneg (nonneg : ∀ i, 0 ≤ t.duration.get i) (free : ¬ t.Overloaded) : 0 ≤ t.slack :=
  sum_nonneg fun i _ => by
    have := nonneg i
    have := earliestEnd_le_endMax free i
    unfold earliestEnd at this
    omega

/-! ## What the rounds come to -/

/-- The rounds end with an overload, or with tasks of which the rules move no bound. -/
inductive Filters : Tasks n → Option (Tasks n) → Prop
  | overloaded {t : Tasks n} (overload : t.Overloaded) : Filters t none
  | settled {t : Tasks n} (free : ¬ t.Overloaded) (same : t.round = t) : Filters t (some t)
  | next {t : Tasks n} {r : Option (Tasks n)} (free : ¬ t.Overloaded) (moves : t.round ≠ t)
    (rest : Filters t.round r) : Filters t r

namespace Filters

/-- A round that moves no bound can be counted as one. -/
theorem of_round (free : ¬ t.Overloaded) (rest : Filters t.round r) : Filters t r := by
  by_cases same : t.round = t
  · rwa [same] at rest
  · exact .next free same rest

theorem unique (h : Filters t r) (h' : Filters t r') : r = r' := by
  induction h with
  | overloaded overload =>
    cases h' with
    | overloaded => rfl
    | settled free => exact absurd overload free
    | next free => exact absurd overload free
  | settled free same =>
    cases h' with
    | overloaded overload => exact absurd overload free
    | settled => rfl
    | next _ moves => exact absurd same moves
  | next free moves _ ih =>
    cases h' with
    | overloaded overload => exact absurd overload free
    | settled _ same => exact absurd same moves
    | next _ _ rest => exact ih rest

/-- What every round without an overload keeps holds of the tasks in the end. -/
theorem invariant {P : Tasks n → Prop} (step : ∀ t, P t → ¬ t.Overloaded → P t.round)
    (h : Filters t (some t')) (start : P t) : P t' := by
  generalize eq : some t' = r at h
  induction h with
  | overloaded => cases eq
  | settled =>
    cases eq
    exact start
  | next free _ _ ih => exact ih (step _ start free) eq

/-- If what every round keeps rules out an overload, the rounds come to tasks of which it holds. -/
theorem exists_of_invariant {P : Tasks n → Prop} (free : ∀ t, P t → ¬ t.Overloaded)
    (step : ∀ t, P t → P t.round) (h : Filters t r) (start : P t) : ∃ t', r = some t' ∧ P t' := by
  induction h with
  | overloaded overload => exact absurd overload (free _ start)
  | settled => exact ⟨_, rfl, start⟩
  | next _ _ _ ih => exact ih (step _ start)

theorem tighter (h : Filters t (some t')) : t.Tighter t' :=
  h.invariant (fun u tighter _ => tighter.trans u.tighter_round) (Tighter.refl t)

theorem roomy (h : Filters t (some t')) (start : t.Roomy) : t'.Roomy :=
  h.invariant (fun _ roomy free => roomy.round free) start

theorem duration_eq (h : Filters t (some t')) : t'.duration = t.duration :=
  h.invariant (P := fun u => u.duration = t.duration) (fun _ same _ => same) rfl

/-- In the end there is no overload, and the rules move no bound. -/
theorem settles (h : Filters t (some t')) : ¬ t'.Overloaded ∧ t'.round = t' := by
  generalize eq : some t' = r at h
  induction h with
  | overloaded => cases eq
  | settled free same =>
    cases eq
    exact ⟨free, same⟩
  | next _ _ _ ih => exact ih eq

end Filters

/-! ## The filter -/

/-- With enough rounds the filter comes to an end. Every round but the last one takes from the slack,
and the round that finds an overload may come when nothing is left of it. -/
theorem exists_filterLoop {rounds : Nat} {orders : Orders n} (changed : Bool) (h : t.Roomy)
    (complete : orders.Complete) (first : 0 < rounds) (enough : t.slack + n < rounds) :
    ∃ r, Filters t r ∧ match r with
      | none => ∃ last, filterLoop rounds changed orders t = .ok (.infeasible, last)
      | some t' => filterLoop rounds changed orders t =
          .ok (if changed = true ∨ t' ≠ t then .changed else .unchanged, t') := by
  induction rounds generalizing t changed orders with
  | zero => omega
  | succ rounds ih =>
    obtain ⟨orders', complete', ran⟩ := exists_filterLoop_eq h complete
    rw [ran]
    by_cases overload : t.Overloaded
    · exact ⟨none, .overloaded overload, t, if_pos overload⟩
    · by_cases same : t.round = t
      · refine ⟨some t, .settled overload same, ?_⟩
        simp [overload, same]
      · have positive : 0 < n := by
          obtain ⟨i, -⟩ | ⟨i, -⟩ := (round_ne_self_iff.1 same).imp ne_iff_exists_get_ne.1
            ne_iff_exists_get_ne.1 <;> exact i.pos
        have nonneg := slack_nonneg h.duration_nonneg overload
        have less := slack_round_lt same
        obtain ⟨r, filters, result⟩ := ih true (h.round overload) complete' (by omega)
          (by omega)
        refine ⟨r, .next overload same filters, ?_⟩
        rw [if_neg overload, if_neg same]
        cases r with
        | none => exact result
        | some t' =>
          have moved : t' ≠ t := by
            rintro rfl
            have := filters.tighter.slack_le
            omega
          simpa [moved] using result

/-- The verdict and the tasks after a filter whose rounds come to the given ones. -/
def outcome (t : Tasks n) : Option (Tasks n) → Verdict × Tasks n
  | none => (.infeasible, t)
  | some t' => (if t' = t then .unchanged else .changed, t')

theorem outcome_self (t : Tasks n) : t.outcome (some t) = (.unchanged, t) := by
  rw [outcome, if_pos rfl]

theorem outcome_eq_of_ne_changed (still : (t.outcome r).1 ≠ .changed) : (t.outcome r).2 = t := by
  cases r with
  | none => rfl
  | some t' =>
    by_contra moved
    exact still (if_neg moved)

theorem exists_of_outcome_changed (changed : (t.outcome r).1 = .changed) :
    ∃ t', r = some t' ∧ t' ≠ t := by
  cases r with
  | none => cases changed
  | some t' =>
    refine ⟨t', rfl, ?_⟩
    rintro rfl
    rw [outcome_self] at changed
    cases changed

theorem outcome_some_ne_infeasible : (t.outcome (some t')).1 ≠ .infeasible := by
  show (if t' = t then Verdict.unchanged else .changed) ≠ .infeasible
  split <;> simp

/-- There are enough rounds for all tasks whose bounds leave room for sums. -/
theorem Roomy.slack_lt_rounds (h : t.Roomy) : t.slack + n < rounds n := by
  have each : t.slack ≤ ∑ _ : Fin n, (Width.w64.span : Int) := by
    refine sum_le_sum fun i _ => ?_
    have := h.le_startMin i
    have := h.endMax_le i
    simp only [Width.greatest, Width.span] at *
    omega
  simp only [sum_const, card_univ, Fintype.card_fin, nsmul_eq_mul, Width.span] at each
  simp only [rounds, Width.span]
  push_cast at *
  omega

/-- From any orders of the tasks the filter comes to the same end. -/
theorem exists_filterLoop_rounds {orders : Orders n} (h : t.Roomy)
    (complete : orders.Complete) :
    ∃ r, Filters t r ∧ ∃ last, filterLoop (rounds n) false orders t = .ok ((t.outcome r).1, last) ∧
      ((t.outcome r).1 = .changed → last = (t.outcome r).2) := by
  obtain ⟨r, filters, result⟩ := exists_filterLoop false h complete (Nat.succ_pos _)
    h.slack_lt_rounds
  refine ⟨r, filters, ?_⟩
  cases r with
  | none =>
    obtain ⟨last, result⟩ := result
    exact ⟨last, result, fun impossible => by cases impossible⟩
  | some t' =>
    refine ⟨t', result.trans ?_, fun _ => rfl⟩
    by_cases same : t' = t <;> simp [outcome, same]

/-- The filter comes to an end, with the tasks that its rounds come to. -/
theorem exists_filter_eq (h : t.Roomy) : ∃ r, Filters t r ∧ t.filter = .ok (t.outcome r) := by
  obtain ⟨r, filters, last, looped, kept⟩ := exists_filterLoop_rounds h (Orders.complete_initial n)
  refine ⟨r, filters, ?_⟩
  rw [filter, looped]
  cases r with
  | none => rfl
  | some t' =>
    by_cases same : t' = t
    · simp only [outcome, same, if_true, bind, Except.bind]
      rfl
    · have last_eq := kept (by simp [outcome, same])
      simp only [outcome, same, if_false, bind, Except.bind] at last_eq ⊢
      rw [last_eq]
      rfl

end Tasks

end Scheduling
