import Mathlib.Tactic.Common
import Scheduling.Domains

/-!
# Consistent interval bounds

The bounds of an interval are `Bounds.Settled` if they lie within the horizon, no range is empty,
and `start + length = end` tightens none of them any further. Making bounds within the horizon
consistent ends with settled bounds for the same placements, or finds that there is no placement.

Results:
* `Bounds.settled_of_propagate_eq_true`, `Bounds.not_admits_of_propagate_eq_false`: what making
  bounds consistent leaves.
* `Interval.admits_of_update?`, `Interval.not_keeps_of_update?_eq_none`: an update keeps exactly the
  values that it allows, and fails only if it allows no value of the domain.
* `Interval.narrows_of_update?`: no bound is relaxed, and a known presence stays.
* `Interval.exists_event_of_update?`: no change of an interval goes unnoticed.
-/

namespace Scheduling

/-- The placement is on the allowed side of a bound that is moved to `value`. -/
def Bound.Keeps (which : Bound) (value start length : Int) : Prop :=
  match which with
  | .startMin => value ≤ start
  | .startMax => start ≤ value
  | .endMin => value ≤ start + length
  | .endMax => start + length ≤ value
  | .lengthMin => value ≤ length
  | .lengthMax => length ≤ value

/-- The quantity of a placement that the bound limits. -/
def Bound.measure (which : Bound) (start length : Int) : Int :=
  match which with
  | .startMin | .startMax => start
  | .endMin | .endMax => start + length
  | .lengthMin | .lengthMax => length

namespace Bounds

/-- Bounds within the horizon with non-empty ranges that `start + length = end` does not tighten. -/
structure Settled (b : Bounds) : Prop where
  horizon_le : -horizon ≤ b.startMin
  le_horizon : b.endMax ≤ horizon
  length_nonneg : 0 ≤ b.lengthMin
  start_le : b.startMin ≤ b.startMax
  end_le : b.endMin ≤ b.endMax
  length_le : b.lengthMin ≤ b.lengthMax
  startMin_ge : b.endMin - b.lengthMax ≤ b.startMin
  startMax_le : b.startMax ≤ b.endMax - b.lengthMin
  endMin_ge : b.startMin + b.lengthMin ≤ b.endMin
  endMax_le : b.endMax ≤ b.startMax + b.lengthMax
  lengthMin_ge : b.endMin - b.startMax ≤ b.lengthMin
  lengthMax_le : b.lengthMax ≤ b.endMax - b.startMin

/-- The second bounds are at least as tight as the first ones. -/
structure Tightens (old new : Bounds) : Prop where
  startMin_le : old.startMin ≤ new.startMin
  le_startMax : new.startMax ≤ old.startMax
  endMin_le : old.endMin ≤ new.endMin
  le_endMax : new.endMax ≤ old.endMax
  lengthMin_le : old.lengthMin ≤ new.lengthMin
  le_lengthMax : new.lengthMax ≤ old.lengthMax

theorem Tightens.refl (b : Bounds) : b.Tightens b := by constructor <;> omega

theorem Tightens.trans {a b c : Bounds} (h : a.Tightens b) (h' : b.Tightens c) :
    a.Tightens c := by
  obtain ⟨h1, h2, h3, h4, h5, h6⟩ := h
  obtain ⟨h1', h2', h3', h4', h5', h6'⟩ := h'
  constructor <;> omega

theorem Tightens.admits {old new : Bounds} (h : old.Tightens new) {start length : Int}
    (admits : new.Admits start length) : old.Admits start length := by
  obtain ⟨h1, h2, h3, h4, h5, h6⟩ := h
  obtain ⟨a1, a2, a3, a4, a5, a6⟩ := admits
  constructor <;> omega

/-! ## Rounds -/

/-- The sum of the widths of the three ranges, which goes down with every round. -/
def slack (b : Bounds) : Int :=
  (b.startMax - b.startMin) + (b.endMax - b.endMin) + (b.lengthMax - b.lengthMin)

theorem isEmpty_eq_false_iff {b : Bounds} : b.isEmpty = false ↔
    b.startMin ≤ b.startMax ∧ b.endMin ≤ b.endMax ∧ b.lengthMin ≤ b.lengthMax := by
  simp [isEmpty, and_assoc]

theorem not_admits_of_isEmpty {b : Bounds} (h : b.isEmpty = true) (start length : Int) :
    ¬ b.Admits start length := by
  rintro ⟨h1, h2, h3, h4, h5, h6⟩
  have : b.isEmpty = false := isEmpty_eq_false_iff.2 ⟨by omega, by omega, by omega⟩
  simp [this] at h

theorem tightens_derived (b : Bounds) : b.Tightens b.derived := by
  constructor <;> simp only [derived] <;> omega

theorem settled_of_derived_eq {b : Bounds} (h : b.WithinHorizon) (nonempty : b.isEmpty = false)
    (eq : b.derived = b) : b.Settled := by
  obtain ⟨h1, h2, h3, h4, h5, h6⟩ := h
  obtain ⟨n1, n2, n3⟩ := isEmpty_eq_false_iff.1 nonempty
  have e1 := congrArg Bounds.startMin eq
  have e2 := congrArg Bounds.startMax eq
  have e3 := congrArg Bounds.endMin eq
  have e4 := congrArg Bounds.endMax eq
  have e5 := congrArg Bounds.lengthMin eq
  have e6 := congrArg Bounds.lengthMax eq
  simp only [derived] at e1 e2 e3 e4 e5 e6
  constructor <;> omega

/-- A round can leave the horizon only by emptying a range. -/
theorem withinHorizon_derived {b : Bounds} (h : b.WithinHorizon)
    (nonempty : b.derived.isEmpty = false) : b.derived.WithinHorizon := by
  obtain ⟨h1, h2, h3, h4, h5, h6⟩ := h
  obtain ⟨n1, n2, n3⟩ := isEmpty_eq_false_iff.1 nonempty
  simp only [derived] at n1 n2 n3
  constructor <;> simp only [derived] <;> omega

theorem Tightens.slack_lt {b c : Bounds} (h : b.Tightens c) (changed : c ≠ b) :
    c.slack < b.slack := by
  by_contra le
  apply changed
  obtain ⟨t1, t2, t3, t4, t5, t6⟩ := h
  obtain ⟨startMin, startMax, endMin, endMax, lengthMin, lengthMax⟩ := b
  obtain ⟨startMin', startMax', endMin', endMax', lengthMin', lengthMax'⟩ := c
  simp only [slack, mk.injEq] at *
  omega

/-- Rounds that outnumber the slack settle the bounds. -/
theorem settle_spec (rounds : Nat) (b : Bounds) (h : b.isEmpty = true ∨ b.WithinHorizon)
    (enough : b.slack < rounds) :
    if (settle rounds b).1 then
      (settle rounds b).2.Settled ∧ b.Tightens (settle rounds b).2 ∧
        ∀ start length, b.Admits start length → (settle rounds b).2.Admits start length
    else ∀ start length, ¬ b.Admits start length := by
  induction rounds generalizing b with
  | zero =>
    simp only [settle, Bool.false_eq_true, if_false]
    apply not_admits_of_isEmpty
    by_contra nonempty
    obtain ⟨n1, n2, n3⟩ := isEmpty_eq_false_iff.1 (by simpa using nonempty)
    simp only [slack] at enough
    omega
  | succ rounds ih =>
    unfold settle
    by_cases empty : b.isEmpty = true
    · simpa [empty] using not_admits_of_isEmpty empty
    · have within := h.resolve_left empty
      simp only [empty, Bool.false_eq_true, if_false, narrow_eq_derived within]
      by_cases done : b.derived = b
      · simp only [done, if_true]
        exact ⟨settled_of_derived_eq within (by simpa using empty) done, .refl b, fun _ _ => id⟩
      · simp only [done, if_false]
        have less := (tightens_derived b).slack_lt done
        have next := ih b.derived (by
          by_cases derivedEmpty : b.derived.isEmpty = true
          · exact .inl derivedEmpty
          · exact .inr (withinHorizon_derived within (by simpa using derivedEmpty))) (by omega)
        split at next
        · rename_i settled
          simp only [settled, if_true]
          exact ⟨next.1, (tightens_derived b).trans next.2.1, fun start length admits =>
            next.2.2 start length (admits_derived_iff.2 admits)⟩
        · rename_i settled
          simp only [settled, Bool.false_eq_true, if_false]
          exact fun start length admits => next start length (admits_derived_iff.2 admits)

theorem slack_lt_rounds {b : Bounds} (h : b.isEmpty = true ∨ b.WithinHorizon) :
    b.isEmpty = true ∨ b.slack < rounds := by
  refine h.imp_right fun within => ?_
  obtain ⟨h1, h2, h3, h4, h5, h6⟩ := within
  have : ((rounds : Nat) : Int) = 2 ^ 192 := by simp [rounds]
  rw [this]
  simp only [slack, horizon] at *
  omega

theorem propagate_of_isEmpty {b : Bounds} (h : b.isEmpty = true) : b.propagate = (false, b) := by
  obtain ⟨n, enough⟩ : ∃ n, rounds = n + 1 := ⟨2 ^ 192 - 1, by simp [rounds]⟩
  unfold propagate
  rw [enough, settle, if_pos h]

/-- Bounds that were made consistent are settled and admit the same placements. -/
theorem settled_of_propagate_eq_true {b c : Bounds} (h : b.isEmpty = true ∨ b.WithinHorizon)
    (settled : b.propagate = (true, c)) :
    c.Settled ∧ b.Tightens c ∧ ∀ start length, b.Admits start length → c.Admits start length := by
  rcases slack_lt_rounds h with empty | enough
  · simp [propagate_of_isEmpty empty] at settled
  · have spec := settle_spec rounds b h enough
    rw [show settle rounds b = (true, c) from settled] at spec
    simpa using spec

/-- Bounds that cannot be made consistent admit no placement. -/
theorem not_admits_of_propagate_eq_false {b c : Bounds} (h : b.isEmpty = true ∨ b.WithinHorizon)
    (failed : b.propagate = (false, c)) (start length : Int) : ¬ b.Admits start length := by
  rcases slack_lt_rounds h with empty | enough
  · exact not_admits_of_isEmpty empty start length
  · have spec := settle_spec rounds b h enough
    rw [show settle rounds b = (false, c) from failed] at spec
    simpa using spec start length

/-! ## Moving one bound -/

theorem admits_tighten_iff {b : Bounds} {which : Bound} {value start length : Int} :
    (b.tighten which value).Admits start length ↔
      b.Admits start length ∧ which.Keeps value start length := by
  constructor
  · rintro ⟨h1, h2, h3, h4, h5, h6⟩
    cases which <;> simp only [tighten, Bound.Keeps] at * <;>
      exact ⟨⟨by omega, by omega, by omega, by omega, by omega, by omega⟩, by omega⟩
  · rintro ⟨⟨h1, h2, h3, h4, h5, h6⟩, keeps⟩
    cases which <;> simp only [tighten, Bound.Keeps] at * <;> constructor <;> simp only [] <;> omega

theorem tightens_tighten (b : Bounds) (which : Bound) (value : Int) :
    b.Tightens (b.tighten which value) := by
  cases which <;> constructor <;> simp only [tighten] <;> omega

/-- A bound can be moved beyond the horizon only by emptying its range. -/
theorem WithinHorizon.tighten {b : Bounds} (h : b.WithinHorizon) (which : Bound) (value : Int) :
    (b.tighten which value).isEmpty = true ∨ (b.tighten which value).WithinHorizon := by
  by_cases empty : (b.tighten which value).isEmpty = true
  · exact .inl empty
  · right
    obtain ⟨n1, n2, n3⟩ := isEmpty_eq_false_iff.1 (by simpa using empty)
    obtain ⟨h1, h2, h3, h4, h5, h6⟩ := h
    cases which <;> simp only [Bounds.tighten] at * <;> constructor <;> simp only [] <;> omega

/-! ## Placements of settled bounds -/

theorem Settled.withinHorizon {b : Bounds} (h : b.Settled) : b.WithinHorizon := by
  obtain ⟨h1, h2, h3, h4, h5, h6, h7, h8, h9, h10, h11, h12⟩ := h
  constructor <;> omega

theorem Settled.exists_admits {b : Bounds} (h : b.Settled) :
    ∃ start length, b.Admits start length := by
  obtain ⟨h1, h2, h3, h4, h5, h6, h7, h8, h9, h10, h11, h12⟩ := h
  refine ⟨b.startMin, max b.lengthMin (b.endMin - b.startMin), ?_⟩
  constructor <;> omega

/-- The given bound. -/
def limit (b : Bounds) : Bound → Int
  | .startMin => b.startMin
  | .startMax => b.startMax
  | .endMin => b.endMin
  | .endMax => b.endMax
  | .lengthMin => b.lengthMin
  | .lengthMax => b.lengthMax

/-- Every bound is attained by a placement within all bounds, whose length is not negative. -/
def Attained (b : Bounds) : Prop :=
  ∀ which : Bound, ∃ start length, 0 ≤ length ∧ b.Admits start length ∧
    which.measure start length = b.limit which

/-- Every bound is attained by a placement within all bounds. -/
theorem Settled.exists_attains {b : Bounds} (h : b.Settled) (which : Bound) :
    ∃ start length, b.Admits start length ∧ which.measure start length = b.limit which := by
  obtain ⟨h1, h2, h3, h4, h5, h6, h7, h8, h9, h10, h11, h12⟩ := h
  have placed (start length : Int) (low : b.startMin ≤ start) (high : start ≤ b.startMax)
      (low' : b.endMin ≤ start + length) (high' : start + length ≤ b.endMax)
      (low'' : b.lengthMin ≤ length) (high'' : length ≤ b.lengthMax) : b.Admits start length :=
    ⟨low, high, low', high', low'', high''⟩
  cases which with
  | startMin =>
    exact ⟨b.startMin, max b.lengthMin (b.endMin - b.startMin), by apply placed <;> omega, rfl⟩
  | startMax =>
    exact ⟨b.startMax, max b.lengthMin (b.endMin - b.startMax), by apply placed <;> omega, rfl⟩
  | endMin =>
    refine ⟨max b.startMin (b.endMin - b.lengthMax),
      b.endMin - max b.startMin (b.endMin - b.lengthMax), by apply placed <;> omega, ?_⟩
    simp only [Bound.measure, limit]
    omega
  | endMax =>
    refine ⟨max b.startMin (b.endMax - b.lengthMax),
      b.endMax - max b.startMin (b.endMax - b.lengthMax), by apply placed <;> omega, ?_⟩
    simp only [Bound.measure, limit]
    omega
  | lengthMin =>
    exact ⟨max b.startMin (b.endMin - b.lengthMin), b.lengthMin, by apply placed <;> omega, rfl⟩
  | lengthMax =>
    exact ⟨max b.startMin (b.endMin - b.lengthMax), b.lengthMax, by apply placed <;> omega, rfl⟩

theorem Settled.attained {b : Bounds} (h : b.Settled) : b.Attained := fun which => by
  obtain ⟨start, length, admits, attains⟩ := h.exists_attains which
  exact ⟨start, length, Int.le_trans h.length_nonneg admits.lengthMin_le, admits, attains⟩

/-- A known start and end leave one length. -/
theorem Settled.length_of_isFixed {b : Bounds} (h : b.Settled) (fixed : b.isFixed = true) :
    b.lengthMin = b.endMin - b.startMin ∧ b.lengthMax = b.endMin - b.startMin := by
  obtain ⟨h1, h2, h3, h4, h5, h6, h7, h8, h9, h10, h11, h12⟩ := h
  simp only [isFixed, Bool.and_eq_true, beq_iff_eq] at fixed
  omega

end Bounds

/-! ## Interval domains -/

/-- The value is one that the update allows. -/
def Update.Keeps : Update → IntervalValue → Prop
  | .bound which value, .placed start length => which.Keeps value start length
  | .bound .., .absent => True
  | .present, value => value ≠ .absent
  | .absent, value => value = .absent

namespace Interval

/-- The bounds are consistent. -/
def WellFormed (v : Interval) : Prop := v.toBounds.Settled

/-- No bound of the second domain is relaxed against the first one, and the presence is the same,
unless it was open. -/
structure Narrows (old new : Interval) : Prop where
  presence : old.presence = .optional ∨ new.presence = old.presence
  tightens : old.toBounds.Tightens new.toBounds

theorem Narrows.refl (v : Interval) : v.Narrows v := ⟨.inr rfl, .refl _⟩

theorem Narrows.trans {a b c : Interval} (h : a.Narrows b) (h' : b.Narrows c) : a.Narrows c := by
  refine ⟨?_, h.tightens.trans h'.tightens⟩
  rcases h.presence with optional | same
  · exact .inl optional
  · rcases h'.presence with optional | same'
    · exact .inl (same ▸ optional)
    · exact .inr (same'.trans same)

theorem Narrows.admits {old new : Interval} (h : old.Narrows new) {value : IntervalValue}
    (admits : new.Admits value) : old.Admits value := by
  cases value with
  | absent =>
    rcases h.presence with optional | same
    · simp [Admits, optional]
    · simpa [Admits, same] using admits
  | placed start length =>
    refine ⟨?_, h.tightens.admits admits.2⟩
    rcases h.presence with optional | same
    · simp [optional]
    · exact same ▸ admits.1

theorem Narrows.isAbsent {old new : Interval} (h : old.Narrows new) (absent : old.isAbsent = true) :
    new.isAbsent = true := by
  rcases h.presence with optional | same
  · simp [Interval.isAbsent, optional] at absent
  · simpa [Interval.isAbsent, same] using absent

theorem Narrows.isPresent {old new : Interval} (h : old.Narrows new)
    (present : old.isPresent = true) : new.isPresent = true := by
  rcases h.presence with optional | same
  · simp [Interval.isPresent, optional] at present
  · simpa [Interval.isPresent, same] using present

variable {v w : Interval} {u : Update}

theorem isAbsent_eq_false (present : v.isPresent = true) : v.isAbsent = false := by
  simp only [isPresent, beq_iff_eq] at present
  simp [isAbsent, present]

/-- An interval that may be present narrows to one that is. -/
theorem narrows_present (possible : v.isAbsent = false) :
    v.Narrows { v with presence := .present } := by
  refine ⟨?_, .refl _⟩
  cases presence : v.presence with
  | present => exact .inr rfl
  | optional => exact .inl rfl
  | absent => simp [isAbsent, presence] at possible

/-- An interval that may be absent narrows to one that is. -/
theorem narrows_absent (possible : v.isPresent = false) :
    v.Narrows { v with presence := .absent } := by
  refine ⟨?_, .refl _⟩
  cases presence : v.presence with
  | present => simp [isPresent, presence] at possible
  | optional => exact .inl rfl
  | absent => exact .inr rfl

/-- All that an update can do: it keeps an absent interval, decides whether the interval takes
place, or moves a bound with those that follow from it. -/
theorem update?_cases (updated : v.update? u = some w) :
    (v.isAbsent = true ∧ u ≠ .present ∧ w = v) ∨
    (v.isAbsent = false ∧ u = .present ∧ w = { v with presence := .present }) ∨
    (v.isPresent = false ∧ u = .absent ∧ w = { v with presence := .absent }) ∨
    (v.isAbsent = false ∧ ∃ which value consistent c, u = .bound which value ∧
      (v.toBounds.tighten which value).propagate = (consistent, c) ∧
      if consistent then w = { v with toBounds := c }
      else v.isPresent = false ∧ w = { v with presence := .absent }) := by
  cases there : v.isAbsent with
  | true =>
    left
    have u_ne : u ≠ .present := by
      rintro rfl
      simp [update?_present, there] at updated
    rw [update?_of_isAbsent there u_ne] at updated
    exact ⟨rfl, u_ne, (Option.some.inj updated).symm⟩
  | false =>
    right
    cases u with
    | present =>
      left
      rw [update?_present, there] at updated
      exact ⟨rfl, rfl, (Option.some.inj updated).symm⟩
    | absent =>
      right; left
      rw [update?_absent] at updated
      split at updated
      · cases updated
      · exact ⟨by simpa using ‹¬ v.isPresent = true›, rfl, (Option.some.inj updated).symm⟩
    | bound which value =>
      right; right
      cases found : (v.toBounds.tighten which value).propagate with
      | mk consistent c =>
        refine ⟨rfl, which, value, consistent, c, rfl, found, ?_⟩
        rw [update?_bound there found] at updated
        cases consistent with
        | true => exact (Option.some.inj updated).symm
        | false =>
          simp only [Bool.false_eq_true, if_false] at updated ⊢
          split at updated
          · cases updated
          · exact ⟨by simpa using ‹¬ v.isPresent = true›, (Option.some.inj updated).symm⟩

/-- An update leaves consistent bounds, of which none is relaxed. -/
theorem narrows_of_update?_of_withinHorizon (h : v.toBounds.WithinHorizon)
    (updated : v.update? u = some w) :
    v.Narrows w ∧ (w.toBounds = v.toBounds ∨ w.WellFormed) := by
  obtain ⟨-, -, rfl⟩ | ⟨possible, -, rfl⟩ | ⟨possible, -, rfl⟩ |
    ⟨-, which, value, consistent, c, -, found, outcome⟩ := update?_cases updated
  · exact ⟨.refl _, .inl rfl⟩
  · exact ⟨narrows_present possible, .inl rfl⟩
  · exact ⟨narrows_absent possible, .inl rfl⟩
  · cases consistent with
    | true =>
      obtain rfl := outcome
      have spec := Bounds.settled_of_propagate_eq_true (h.tighten which value) found
      exact ⟨⟨.inr rfl, (Bounds.tightens_tighten _ which value).trans spec.2.1⟩, .inr spec.1⟩
    | false =>
      obtain ⟨possible, rfl⟩ := outcome
      exact ⟨narrows_absent possible, .inl rfl⟩

theorem narrows_of_update? (h : v.WellFormed) (updated : v.update? u = some w) :
    w.WellFormed ∧ v.Narrows w := by
  obtain ⟨narrows, same | wellFormed⟩ :=
    narrows_of_update?_of_withinHorizon (Bounds.Settled.withinHorizon h) updated
  · refine ⟨?_, narrows⟩
    rw [WellFormed, same]
    exact h
  · exact ⟨wellFormed, narrows⟩

/-- A bound that is moved holds for the new domain, unless the interval is absent. -/
theorem tightens_of_update? {which : Bound} {value : Int} (h : v.WellFormed)
    (updated : v.update? (.bound which value) = some w) (there : w.isAbsent = false) :
    (v.toBounds.tighten which value).Tightens w.toBounds := by
  obtain ⟨absent, -, rfl⟩ | ⟨-, u_eq, -⟩ | ⟨-, u_eq, -⟩ |
    ⟨-, _, _, consistent, c, u_eq, found, outcome⟩ := update?_cases updated
  · simp [absent] at there
  · cases u_eq
  · cases u_eq
  · cases u_eq
    cases consistent with
    | true =>
      obtain rfl := outcome
      exact (Bounds.settled_of_propagate_eq_true (h.withinHorizon.tighten which value) found).2.1
    | false =>
      obtain ⟨-, rfl⟩ := outcome
      cases there

/-- The placements that a moved bound allows are those of the bounds made consistent with it. -/
theorem admits_propagate_iff {which : Bound} {bound : Int} {c : Bounds} (h : v.WellFormed)
    (found : (v.toBounds.tighten which bound).propagate = (true, c)) {start length : Int} :
    c.Admits start length ↔ v.toBounds.Admits start length ∧ which.Keeps bound start length := by
  have spec := Bounds.settled_of_propagate_eq_true (h.withinHorizon.tighten which bound) found
  exact Iff.trans ⟨spec.2.1.admits, spec.2.2 start length⟩ Bounds.admits_tighten_iff

/-- Bounds that cannot be made consistent leave no placement that the moved bound allows. -/
theorem not_keeps_of_propagate {which : Bound} {bound : Int} {c : Bounds} (h : v.WellFormed)
    (found : (v.toBounds.tighten which bound).propagate = (false, c)) {start length : Int}
    (admits : v.toBounds.Admits start length) : ¬ which.Keeps bound start length := fun keeps =>
  Bounds.not_admits_of_propagate_eq_false (h.withinHorizon.tighten which bound) found start length
    (Bounds.admits_tighten_iff.2 ⟨admits, keeps⟩)

/-- The new domain holds exactly the old values that the update allows. -/
theorem admits_of_update? {value : IntervalValue} (h : v.WellFormed)
    (updated : v.update? u = some w) : w.Admits value ↔ v.Admits value ∧ u.Keeps value := by
  obtain ⟨absent, u_ne, rfl⟩ | ⟨possible, rfl, rfl⟩ | ⟨possible, rfl, rfl⟩ |
    ⟨there, which, bound, consistent, c, rfl, found, outcome⟩ := update?_cases updated
  · have presence : w.presence = .absent := by simpa [isAbsent] using absent
    cases u with
    | present => exact absurd rfl u_ne
    | absent | bound => cases value <;> simp [Admits, Update.Keeps, presence]
  · have presence : v.presence ≠ .absent := by simpa [isAbsent] using possible
    cases value <;> simp [Admits, Update.Keeps, presence]
  · have presence : v.presence ≠ .present := by simpa [isPresent] using possible
    cases value <;> simp [Admits, Update.Keeps, presence]
  · have presence : v.presence ≠ .absent := by simpa [isAbsent] using there
    cases consistent with
    | true =>
      obtain rfl := outcome
      cases value with
      | absent => simp [Admits, Update.Keeps]
      | placed start length =>
        simp [Admits, Update.Keeps, presence, admits_propagate_iff h found]
    | false =>
      obtain ⟨possible, rfl⟩ := outcome
      have presence' : v.presence ≠ .present := by simpa [isPresent] using possible
      cases value with
      | absent => simp [Admits, Update.Keeps, presence']
      | placed start length =>
        simpa [Admits, Update.Keeps, presence] using fun admits =>
          not_keeps_of_propagate h found admits

/-- An update fails only if it allows no value of the domain. -/
theorem not_keeps_of_update?_eq_none {value : IntervalValue} (h : v.WellFormed)
    (failed : v.update? u = none) (admits : v.Admits value) : ¬ u.Keeps value := by
  cases u with
  | present =>
    have presence : v.presence = .absent := by simpa [update?_present, isAbsent] using failed
    cases value <;> simp_all [Admits, Update.Keeps]
  | absent =>
    have presence : v.presence = .present := by simpa [update?_absent, isPresent] using failed
    cases value <;> simp_all [Admits, Update.Keeps]
  | bound which bound =>
    cases there : v.isAbsent with
    | true => simp [update?_of_isAbsent there] at failed
    | false =>
      cases found : (v.toBounds.tighten which bound).propagate with
      | mk consistent c =>
        rw [update?_bound there found] at failed
        cases consistent with
        | true => cases failed
        | false =>
          have presence : v.presence = .present := by simpa [isPresent] using failed
          cases value with
          | absent => exact absurd presence admits
          | placed start length => exact not_keeps_of_propagate h found admits.2

/-- The decision that an interval takes place says nothing about where. -/
theorem of_update?_present (updated : v.update? .present = some w) :
    w = { v with presence := .present } ∧ v.presence ≠ .absent := by
  rw [update?_present] at updated
  split at updated
  · cases updated
  · exact ⟨(Option.some.inj updated).symm, by simpa [isAbsent] using ‹¬ v.isAbsent = true›⟩

theorem of_update?_absent (updated : v.update? .absent = some w) :
    w = { v with presence := .absent } ∧ v.presence ≠ .present := by
  rw [update?_absent] at updated
  split at updated
  · cases updated
  · exact ⟨(Option.some.inj updated).symm, by simpa [isPresent] using ‹¬ v.isPresent = true›⟩

theorem isAbsent_of_update?_absent (h : v.update? .absent = some w) : w.isAbsent = true := by
  rw [(of_update?_absent h).1]
  rfl

theorem isPresent_of_update?_present (h : v.update? .present = some w) : w.isPresent = true := by
  rw [(of_update?_present h).1]
  rfl

theorem isAbsent_of_update? (absent : v.isAbsent = true) (updated : v.update? u = some w) :
    w = v := by
  have u_ne : u ≠ .present := by
    rintro rfl
    simp [update?_present, absent] at updated
  exact Option.some.inj (updated.symm.trans (update?_of_isAbsent absent u_ne))

/-- Every change of an interval is reported by an event. -/
theorem exists_event_of_update? {v w : Interval} {u : Update} (h : v.WellFormed)
    (updated : v.update? u = some w) (changed : w ≠ v) :
    ∃ e ∈ v.eventsTo w, e ∈ EventSet.anyInterval := by
  obtain ⟨-, presence, t1, t2, t3, t4, t5, t6⟩ := narrows_of_update? h updated
  by_cases decided : v.presence = w.presence
  · have here : w.isAbsent = false := by
      by_contra absent
      refine changed (isAbsent_of_update? ?_ updated)
      simpa [isAbsent, decided] using absent
    have strict : w.toBounds.raisedFrom v.toBounds = true ∨
        w.toBounds.loweredFrom v.toBounds = true := by
      by_contra none
      apply changed
      obtain ⟨⟨_, _, _, _, _, _⟩, _⟩ := v
      obtain ⟨⟨_, _, _, _, _, _⟩, _⟩ := w
      simp only [Bounds.raisedFrom, Bounds.loweredFrom, Bool.or_eq_true, decide_eq_true_eq,
        not_or, Int.not_lt] at none t1 t2 t3 t4 t5 t6 decided
      simp only [mk.injEq, Bounds.mk.injEq]
      refine ⟨⟨?_, ?_, ?_, ?_, ?_, ?_⟩, decided.symm⟩ <;> omega
    rcases strict with raised | lowered
    · exact ⟨.lowerBound, by simp [eventsTo, here, raised], by simp [EventSet.anyInterval]⟩
    · exact ⟨.upperBound, by simp [eventsTo, here, lowered], by simp [EventSet.anyInterval]⟩
  · refine ⟨.presence, ?_, by simp [EventSet.anyInterval]⟩
    simp only [eventsTo, decided, if_false]
    split <;> simp

theorem WellFormed.exists_admits {v : Interval} (h : v.WellFormed) : ∃ value, v.Admits value := by
  obtain ⟨start, length, admits⟩ := Bounds.Settled.exists_admits h
  by_cases absent : v.presence = .absent
  · exact ⟨.absent, by simp [Admits, absent]⟩
  · exact ⟨.placed start length, absent, admits⟩

end Interval

end Scheduling
