import Mathlib.Algebra.Order.BigOperators.Group.List
import Scheduling.Proofs.Computation

/-!
# The room that is left

Domains that lie within words and within the horizon leave room for a limited number of changes:
every change moves a bound or decides a presence, and an update that changes nothing leaves no
trace. The bounds of an interval need not be consistent for this.

Results:
* `IntegerDomain.room_lt_of_update?`, `Interval.room_lt_of_update?`: every change uses up room.
* `Domains.room_le`: how much room there can be.
* `Store.Reaches.spends`: the steps of a propagator change no domain and record no event, or they
  use up room.
-/

namespace Scheduling

/-! ## Rows -/

/-- How far the bounds can still be moved. -/
def IntegerDomain.room (d : IntegerDomain) : Nat := (d.upper - d.lower).toNat

theorem IntegerDomain.room_lt_of_update? {d new : IntegerDomain} {side : Side} {value : Int}
    (h : d.WellFormed) (updated : d.update? side value = some new) (changed : new ≠ d) :
    new.room < d.room := by
  obtain ⟨⟨nonempty, -, -⟩, lower, upper⟩ := narrows_of_update? h updated
  have moved : d.lower < new.lower ∨ new.upper < d.upper := by
    by_contra still
    apply changed
    obtain ⟨l, u⟩ := d
    obtain ⟨l', u'⟩ := new
    simp only [mk.injEq] at *
    omega
  unfold room
  omega

theorem IntegerDomain.room_le {d : IntegerDomain} (h : d.WellFormed) :
    d.room ≤ 2 * Width.w32.span := by
  obtain ⟨-, ⟨low, -⟩, -, high⟩ := h
  simp only [room, Width.least, Width.greatest, Width.span] at *
  omega

/-- How far the bounds can still be moved, and whether the presence can still be decided. -/
def Interval.room (v : Interval) : Nat :=
  v.toBounds.slack.toNat + if v.presence = .optional then 1 else 0

theorem Interval.room_lt_of_update? {v w : Interval} {u : Update}
    (h : v.toBounds.WithinHorizon) (updated : v.update? u = some w) (changed : w ≠ v) :
    w.room < v.room := by
  obtain ⟨⟨presence, tightens⟩, bounds⟩ := narrows_of_update?_of_withinHorizon h updated
  by_cases same : w.toBounds = v.toBounds
  · -- only the presence can have changed, and it can only have been decided
    have differs : w.presence ≠ v.presence := fun eq => changed <| by
      obtain ⟨b, p⟩ := v
      obtain ⟨b', p'⟩ := w
      simp_all
    have optional : v.presence = .optional := presence.resolve_right differs
    rw [optional] at differs
    simp [room, same, optional, differs]
  · obtain ⟨-, -, -, start, stop, length, -⟩ := bounds.resolve_left same
    have less := tightens.slack_lt same
    have left : 0 ≤ w.toBounds.slack := by
      unfold Bounds.slack
      omega
    have decided : w.presence = .optional → v.presence = .optional := fun optional =>
      presence.elim id fun eq => eq ▸ optional
    simp only [room]
    split_ifs <;> first | omega | simp_all

theorem Interval.room_le {v : Interval} (h : v.toBounds.WithinHorizon) :
    v.room ≤ 7 * Width.w32.span := by
  obtain ⟨h1, h2, h3, h4, h5, h6⟩ := h
  simp only [room, Bounds.slack, horizon, Width.span] at *
  split <;> omega

/-! ## Tables -/

namespace Table

variable {α : Type}

/-- What the rows add up to. -/
def total (f : α → Nat) (t : Table α) : Nat := (t.toList.map f).sum

theorem total_set {t : Table α} {key : Nat} {old : α} (f : α → Nat) (new : α)
    (h : t.get? key = some old) : (t.set key new).total f + f old = t.total f + f new := by
  obtain ⟨rows⟩ := t
  simp only [total, toList, set, get?, Array.toList_setIfInBounds, ← Array.getElem?_toList] at *
  generalize rows.toList = rows at *
  induction rows generalizing key with
  | nil => cases h
  | cons first rows ih =>
    cases key with
    | zero =>
      cases h
      simp only [List.set_cons_zero, List.map_cons, List.sum_cons]
      omega
    | succ key =>
      have rest := ih h
      simp only [List.set_cons_succ, List.map_cons, List.sum_cons]
      omega

theorem total_le {t : Table α} {f : α → Nat} {most : Nat}
    (h : ∀ key row, t.get? key = some row → f row ≤ most) : t.total f ≤ most * t.size := by
  have each : ∀ n ∈ t.toList.map f, n ≤ most := by
    intro n mem
    obtain ⟨row, there, rfl⟩ := List.mem_map.1 mem
    obtain ⟨key, here⟩ := List.mem_iff_getElem?.1 there
    exact h key row (by rw [get?, ← Array.getElem?_toList]; exact here)
  have bound := List.sum_le_card_nsmul _ _ each
  rw [List.length_map, Nat.nsmul_eq_mul, Nat.mul_comm] at bound
  exact bound

end Table

/-! ## Domains -/

namespace Domains

/-- No integer domain is empty, and all domains lie within words and within the horizon. -/
structure Bounded (d : Domains) : Prop where
  integer : ∀ x row, d.integer x = .ok row → row.WellFormed
  interval : ∀ i row, d.interval i = .ok row → row.toBounds.WithinHorizon

theorem WellFormed.bounded {d : Domains} (h : d.WellFormed) : d.Bounded :=
  ⟨h.integer, fun i row here => Bounds.Settled.withinHorizon (h.interval i row here)⟩

/-- A bound on the number of changes that are still possible. -/
def room (d : Domains) : Nat :=
  d.integers.total IntegerDomain.room + d.intervals.total Interval.room

theorem room_le {d : Domains} (h : d.Bounded) :
    d.room ≤ Width.w32.span * (2 * d.integers.size + 7 * d.intervals.size) := by
  have integers : d.integers.total IntegerDomain.room ≤ 2 * Width.w32.span * d.integers.size :=
    Table.total_le fun key row here =>
      IntegerDomain.room_le (h.integer ⟨key⟩ row (integer_eq_ok_iff.2 here))
  have intervals : d.intervals.total Interval.room ≤ 7 * Width.w32.span * d.intervals.size :=
    Table.total_le fun key row here =>
      Interval.room_le (h.interval ⟨key⟩ row (interval_eq_ok_iff.2 here))
  unfold room
  grind

/-- Either nothing happens, or room is used up. -/
structure Spends (d d' : Domains) : Prop where
  bounded : d'.Bounded
  integers : d'.integers.size = d.integers.size
  intervals : d'.intervals.size = d.intervals.size
  room : d' = d ∨ d'.room < d.room

namespace Spends

variable {a b c d d' : Domains}

theorem refl (h : d.Bounded) : d.Spends d := ⟨h, rfl, rfl, .inl rfl⟩

theorem trans (h : a.Spends b) (h' : b.Spends c) : a.Spends c where
  bounded := h'.bounded
  integers := h'.integers.trans h.integers
  intervals := h'.intervals.trans h.intervals
  room := by
    rcases h.room with rfl | less
    · exact h'.room
    · rcases h'.room with rfl | less'
      · exact .inr less
      · exact .inr (less'.trans less)

/-- Domains with the same rows are the same, down to the events. -/
theorem eq_of_rows_eq (h : d.Spends d') (rows : d'.rows = d.rows) : d' = d := by
  refine h.room.resolve_right (Nat.not_lt_of_le (Nat.le_of_eq ?_))
  exact (congrArg Domains.room rows).symm

theorem of_tighten {x : IntegerId} {side : Side} {value : Int} (h : d.Bounded)
    (tightened : d.tighten x side value = .ok (some d')) : d.Spends d' := by
  obtain ⟨old, new, here, updated, ⟨-, rfl⟩ | ⟨changed, rfl⟩⟩ := tighten_cases tightened
  · exact .refl h
  have wellFormed := h.integer x old here
  refine ⟨⟨fun y row found => ?_, h.interval⟩, Table.size_set .., rfl, .inr ?_⟩
  · rw [integer_set_commit here] at found
    split at found
    · cases found
      exact (IntegerDomain.narrows_of_update? wellFormed updated).1
    · exact h.integer y row found
  · have less := IntegerDomain.room_lt_of_update? wellFormed updated changed
    have moved := Table.total_set IntegerDomain.room new (integer_eq_ok_iff.1 here)
    simp only [Domains.room, commit]
    omega

theorem of_update {i : IntervalId} {u : Update} (h : d.Bounded)
    (done : d.update i u = .ok (some d')) : d.Spends d' := by
  obtain ⟨old, new, here, updated, ⟨-, rfl⟩ | ⟨changed, rfl⟩⟩ := update_cases done
  · exact .refl h
  have within := h.interval i old here
  refine ⟨⟨h.integer, fun j row found => ?_⟩, rfl, Table.size_set .., .inr ?_⟩
  · rw [interval_set_commit here] at found
    split at found
    · cases found
      rcases (Interval.narrows_of_update?_of_withinHorizon within updated).2 with same | settled
      · rw [same]
        exact within
      · exact Bounds.Settled.withinHorizon settled
    · exact h.interval j row found
  · have less := Interval.room_lt_of_update? within updated changed
    have moved := Table.total_set Interval.room new (interval_eq_ok_iff.1 here)
    simp only [Domains.room, commit]
    omega

end Spends

end Domains

namespace Store

variable {own : List CellId} {s s' : Store}

/-- The steps of a propagator change nothing of the domains, or use up room. There are as many cells
as before. -/
theorem Reaches.spends (h : s.Reaches own s') (bounded : s.domains.Bounded) :
    s.domains.Spends s'.domains ∧ s'.cells.values.size = s.cells.values.size := by
  induction h with
  | refl => exact ⟨.refl bounded, rfl⟩
  | tail _ move ih =>
    obtain ⟨spends, size⟩ := ih
    cases move with
    | decide d wrote =>
      rcases d.cases_of_write wrote with ⟨x, side, value, tightened⟩ | ⟨i, u, updated⟩
      · exact ⟨spends.trans (.of_tighten spends.bounded tightened), size⟩
      · exact ⟨spends.trans (.of_update spends.bounded updated), size⟩
    | assign mem assigned =>
      exact ⟨spends, (Cells.evolves_of_assign assigned).size.trans size⟩
    | note n => exact ⟨spends, size⟩

end Store

end Scheduling
