import Mathlib.Logic.Function.Iterate
import Mathlib.Order.Bounds.Basic
import Scheduling.Proofs.Interval.Consistency

/-!
# The hull of interval bounds

Making bounds consistent is a loop: as long as no range is empty, a round replaces all six bounds at
once, and the loop ends when a round changes nothing. Within the horizon every round that is
computed stays in its words, and as it takes something off the ranges, there are only finitely many
of them. What is left are the least and the greatest start, end and length of the placements.

Results:
* `Bounds.Settled.hull`: settled bounds are those of their placements.
* `Bounds.exists_rounds`: within the horizon the loop ends.
* `Bounds.settle_eq`: the answer is the one at the end of the loop.
* `Bounds.propagate_finds_hull`: making bounds consistent finds the bounds of the placements, or that
  there are none.
-/

namespace Scheduling

/-- The side from which the bound limits its quantity. -/
def Bound.side : Bound → Side
  | startMin | endMin | lengthMin => .lower
  | startMax | endMax | lengthMax => .upper

theorem Bound.keeps_iff {which : Bound} {value start length : Int} :
    which.Keeps value start length ↔ which.side.Keeps value (which.measure start length) := by
  cases which <;> rfl

namespace Bounds

/-! ## Least and greatest quantities -/

/-- A placement lies within the bounds if it is on the allowed side of each of them. -/
theorem admits_iff_keeps {b : Bounds} {start length : Int} :
    b.Admits start length ↔ ∀ which : Bound, which.Keeps (b.limit which) start length := by
  constructor
  · rintro ⟨h1, h2, h3, h4, h5, h6⟩ which
    cases which <;> assumption
  · exact fun h => ⟨h .startMin, h .startMax, h .endMin, h .endMax, h .lengthMin, h .lengthMax⟩

/-- The values that the quantity of a bound has in the placements within the bounds. -/
def measures (b : Bounds) (which : Bound) : Set Int :=
  {x | ∃ start length, b.Admits start length ∧ which.measure start length = x}

/-- The second bounds are the least and the greatest values of their quantities in the placements
within the first ones. -/
structure Hull (b c : Bounds) : Prop where
  least : ∀ which, which.side = .lower → IsLeast (b.measures which) (c.limit which)
  greatest : ∀ which, which.side = .upper → IsGreatest (b.measures which) (c.limit which)

/-- Settled bounds are those of their placements. -/
theorem Settled.hull {c : Bounds} (h : c.Settled) : c.Hull c := by
  refine ⟨fun which side => ⟨h.exists_attains which, ?_⟩,
    fun which side => ⟨h.exists_attains which, ?_⟩⟩ <;>
  · rintro _ ⟨start, length, admits, rfl⟩
    have keeps := Bound.keeps_iff.1 (admits_iff_keeps.1 admits which)
    rw [side] at keeps
    exact keeps

theorem Hull.of_admits_iff {a b c : Bounds} (h : b.Hull c)
    (same : ∀ start length, a.Admits start length ↔ b.Admits start length) : a.Hull c := by
  have eq (which : Bound) : a.measures which = b.measures which := by
    simp only [measures, same]
  exact ⟨fun which side => eq which ▸ h.least which side,
    fun which side => eq which ▸ h.greatest which side⟩

/-! ## The loop -/

/-- No range is empty, and a round changes something. -/
def GoesOn (b : Bounds) : Prop := b.isEmpty = false ∧ b.narrow ≠ b

/-- The loop comes to its end after `n` rounds. -/
structure Rounds (b : Bounds) (n : Nat) : Prop where
  goesOn : ∀ k, k < n → (narrow^[k] b).GoesOn
  ends : ¬ (narrow^[n] b).GoesOn

theorem rounds_zero_iff {b : Bounds} : b.Rounds 0 ↔ ¬ b.GoesOn :=
  ⟨Rounds.ends, fun h => ⟨fun k lt => absurd lt (Nat.not_lt_zero k), h⟩⟩

theorem rounds_succ_iff {b : Bounds} {n : Nat} :
    b.Rounds (n + 1) ↔ b.GoesOn ∧ b.narrow.Rounds n := by
  constructor
  · intro h
    refine ⟨h.goesOn 0 (Nat.succ_pos n), fun k lt => ?_, ?_⟩
    · rw [← Function.iterate_succ_apply]
      exact h.goesOn (k + 1) (Nat.succ_lt_succ lt)
    · rw [← Function.iterate_succ_apply]
      exact h.ends
  · rintro ⟨first, h⟩
    refine ⟨fun k lt => ?_, by rw [Function.iterate_succ_apply]; exact h.ends⟩
    cases k with
    | zero => exact first
    | succ k =>
      rw [Function.iterate_succ_apply]
      exact h.goesOn k (Nat.lt_of_succ_lt_succ lt)

/-- If the loop is given more rounds than it takes, the answer is the one at its end. -/
theorem settle_eq {b : Bounds} {n rounds : Nat} (h : b.Rounds n) (enough : n < rounds) :
    settle rounds b = (!(narrow^[n] b).isEmpty, narrow^[n] b) := by
  obtain ⟨rounds, rfl⟩ := Nat.exists_eq_add_one_of_ne_zero (Nat.ne_zero_of_lt enough)
  unfold settle
  induction n generalizing b rounds with
  | zero =>
    have ends := rounds_zero_iff.1 h
    simp only [GoesOn, not_and, ne_eq, Decidable.not_not] at ends
    cases empty : b.isEmpty with
    | true => simp [empty]
    | false => simp [empty, ends empty]
  | succ n ih =>
    obtain ⟨⟨nonempty, changed⟩, rest⟩ := rounds_succ_iff.1 h
    obtain ⟨rounds, rfl⟩ := Nat.exists_eq_add_one_of_ne_zero (show rounds ≠ 0 by omega)
    simp only [nonempty, Bool.false_eq_true, if_false, changed]
    rw [settle, ih rest rounds (Nat.lt_of_succ_lt_succ enough), Function.iterate_succ_apply]

/-- Going on, the loop stays within the horizon, or a range is empty and it ends. -/
theorem withinHorizon_narrow {b : Bounds} (h : b.isEmpty = true ∨ b.WithinHorizon)
    (goesOn : b.GoesOn) : b.narrow.isEmpty = true ∨ b.narrow.WithinHorizon := by
  have within := h.resolve_left (by simp [goesOn.1])
  rw [narrow_eq_derived within]
  by_cases empty : b.derived.isEmpty = true
  · exact .inl empty
  · exact .inr (withinHorizon_derived within (by simpa using empty))

theorem withinHorizon_iterate {b : Bounds} (h : b.isEmpty = true ∨ b.WithinHorizon) {k : Nat}
    (goesOn : ∀ j, j < k → (narrow^[j] b).GoesOn) :
    (narrow^[k] b).isEmpty = true ∨ (narrow^[k] b).WithinHorizon := by
  induction k with
  | zero => exact h
  | succ k ih =>
    rw [Function.iterate_succ_apply']
    exact withinHorizon_narrow (ih fun j lt => goesOn j (Nat.lt_succ_of_lt lt))
      (goesOn k (Nat.lt_succ_self k))

/-- Within the horizon the loop ends, as every round but the last one takes something off the
ranges. -/
theorem exists_rounds {b : Bounds} (h : b.isEmpty = true ∨ b.WithinHorizon) :
    ∃ n : Nat, b.Rounds n ∧ (n : Int) ≤ max 0 (b.slack + 1) := by
  by_cases goesOn : b.GoesOn
  · have within := h.resolve_left (by simp [goesOn.1])
    have less : b.narrow.slack < b.slack := by
      have changed := goesOn.2
      rw [narrow_eq_derived within] at changed ⊢
      exact (tightens_derived b).slack_lt changed
    obtain ⟨n1, n2, n3⟩ := isEmpty_eq_false_iff.1 goesOn.1
    have nonneg : 0 ≤ b.slack := by simp only [slack]; omega
    obtain ⟨n, rounds, bound⟩ := exists_rounds (withinHorizon_narrow h goesOn)
    exact ⟨n + 1, rounds_succ_iff.2 ⟨goesOn, rounds⟩, by omega⟩
  · exact ⟨0, rounds_zero_iff.2 goesOn, by omega⟩
termination_by (b.slack + 1).toNat
decreasing_by omega

theorem exists_few_rounds {b : Bounds} (h : b.isEmpty = true ∨ b.WithinHorizon) :
    ∃ n : Nat, b.Rounds n ∧ (n : Int) ≤ 6 * horizon + 1 := by
  rcases h with empty | within
  · refine ⟨0, rounds_zero_iff.2 fun goesOn => ?_, by decide⟩
    simp [goesOn.1] at empty
  · obtain ⟨n, rounds, bound⟩ := exists_rounds (.inr within)
    obtain ⟨h1, h2, h3, h4, h5, h6⟩ := within
    refine ⟨n, rounds, ?_⟩
    simp only [slack, horizon] at *
    omega

/-- Let bounds within the horizon be given, with at most one of them moved, whichever and however
far. Making them consistent takes finitely many rounds, and all that these compute fits its words.
The answer is that of the last round: it is negative exactly if no placement lies within the bounds,
and otherwise every bound is then the least or the greatest value of its quantity in the placements.
-/
theorem propagate_finds_hull {b b' : Bounds} (within : b.WithinHorizon)
    (moved : b' = b ∨ ∃ which value, b' = b.tighten which value) :
    ∃ n : Nat, b'.Rounds n ∧ (n : Int) ≤ 6 * horizon + 1 ∧
      (∀ k, k ≤ n → (narrow^[k] b').isEmpty = false → ∀ which,
        Width.w32.wrap ((narrow^[k] b').derived.limit which) =
          (narrow^[k] b').derived.limit which) ∧
      b'.propagate = (!(narrow^[n] b').isEmpty, narrow^[n] b') ∧
      (b'.propagate.1 = false ↔ ¬ ∃ start length, b'.Admits start length) ∧
      (b'.propagate.1 = true → b'.Hull b'.propagate.2) := by
  have start : b'.isEmpty = true ∨ b'.WithinHorizon := by
    rcases moved with rfl | ⟨which, value, rfl⟩
    · exact .inr within
    · exact within.tighten which value
  obtain ⟨n, ended, few⟩ := exists_few_rounds start
  have answer : b'.propagate = (!(narrow^[n] b').isEmpty, narrow^[n] b') := by
    refine settle_eq ended ?_
    have many : ((rounds : Nat) : Int) = 2 ^ 192 := by simp [rounds]
    simp only [horizon] at few
    omega
  have casts (k : Nat) (le : k ≤ n) (nonempty : (narrow^[k] b').isEmpty = false) (which : Bound) :
      Width.w32.wrap ((narrow^[k] b').derived.limit which) =
        (narrow^[k] b').derived.limit which := by
    have here := (withinHorizon_iterate start fun j lt => ended.goesOn j (by omega)).resolve_left
      (show ¬ (narrow^[k] b').isEmpty = true by simp [nonempty])
    have same := congrArg (fun c => Bounds.limit c which) (narrow_eq_derived here)
    cases which <;> exact same
  refine ⟨n, ended, few, casts, answer, ?_⟩
  cases found : b'.propagate with
  | mk consistent c =>
    cases consistent with
    | false =>
      have none : ¬ ∃ start length, b'.Admits start length := by
        rintro ⟨first, length, admits⟩
        exact not_admits_of_propagate_eq_false start found first length admits
      exact ⟨⟨fun _ => none, fun _ => rfl⟩, by simp⟩
    | true =>
      obtain ⟨settled, tightens, kept⟩ := settled_of_propagate_eq_true start found
      have some : ∃ start length, b'.Admits start length := by
        obtain ⟨first, length, admits⟩ := settled.exists_admits
        exact ⟨first, length, tightens.admits admits⟩
      refine ⟨⟨by simp, fun none => absurd some none⟩, fun _ => ?_⟩
      exact settled.hull.of_admits_iff fun start length =>
        ⟨kept start length, tightens.admits⟩

/-- Bounds of which the least start was moved. -/
def shifted : Bounds := ⟨7, 10, 5, 15, 5, 5⟩

theorem propagate_finds_hull_shifted : WithinHorizon ⟨0, 10, 5, 15, 5, 5⟩ ∧
    shifted = tighten ⟨0, 10, 5, 15, 5, 5⟩ .startMin 7 ∧
    shifted.propagate = (true, ⟨7, 10, 12, 15, 5, 5⟩) ∧ shifted.Hull ⟨7, 10, 12, 15, 5, 5⟩ := by
  have within : WithinHorizon ⟨0, 10, 5, 15, 5, 5⟩ := by
    constructor <;> decide
  have moved : shifted = tighten ⟨0, 10, 5, 15, 5, 5⟩ .startMin 7 := by decide
  have answer : shifted.propagate = (true, ⟨7, 10, 12, 15, 5, 5⟩) := by cbv
  obtain ⟨n, -, -, -, -, -, hull⟩ := propagate_finds_hull within (.inr ⟨_, _, moved⟩)
  rw [answer] at hull
  exact ⟨within, moved, answer, hull rfl⟩

end Bounds

end Scheduling
