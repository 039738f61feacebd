import Scheduling.Proofs.Disjunctive.Placement
import Scheduling.Proofs.Literals
import Scheduling.Proofs.Posting

/-!
# The guarantee of a precedence

Two intervals that are placed stand in one order, and in the one that the literal states. A
precedence is switched off once both intervals and the literal count as fixed. An optional interval
with known bounds counts as fixed, although it binds no other interval before it is present; so the
guarantee is given only as long as the precedence is not called when it is blind to a conflict.

Results:
* `Precedence.Ordered`: what a precedence guarantees.
* `Precedence.Blind`: the domains in which it is switched off too early.
* `Precedence.settled_of_propagate`: otherwise it is switched off only when nothing is left to do.
* `Precedence.guarantee`, `Precedence.lawful`: the guarantee, and that a precedence gives it.
-/

namespace Scheduling

open Propagation

/-- What is left of a present interval that is made to end before it starts, one bound after the
other. -/
def Interval.squeeze (v : Interval) : Option Interval := do
  let w ← v.update? (.bound .startMin v.endMin)
  w.update? (.bound .endMax w.startMax)

theorem Interval.isOptional_eq_true {v : Interval} (missing : v.isPresent = false)
    (there : v.isAbsent = false) : v.isOptional = true := by
  cases presence : v.presence <;> simp_all [isPresent, isAbsent, isOptional]

namespace Precedence

/-- The interval that comes first if the literal has the given value. -/
def earlier (p : Precedence) (value : Bool) : IntervalId := if value then p.first else p.second

/-- The interval that comes second if the literal has the given value. -/
def later (p : Precedence) (value : Bool) : IntervalId := if value then p.second else p.first

/-- Once both intervals are placed, one of them ends before the other one starts, and it is the one
that the literal states. -/
def Ordered (p : Precedence) (d : Domains) : Prop :=
  ∀ start stop start' stop', d.Places p.first start stop → d.Places p.second start' stop' →
    (stop ≤ start' ∨ stop' ≤ start) ∧ (p.before.isTrue d = .ok true → stop ≤ start') ∧
      (p.before.isFalse d = .ok true → stop' ≤ start)

/-- An interval is absent, or both have known bounds and stand in the order that the literal
states. -/
inductive Settled (p : Precedence) (d : Domains) : Prop
  | first (lacks : d.Lacks p.first)
  | second (lacks : d.Lacks p.second)
  | ordered (value : Bool) (v w : Interval) (decided : d.Decides p.before value)
    (row : d.interval (p.earlier value) = .ok v) (row' : d.interval (p.later value) = .ok w)
    (fixed : v.toBounds.isFixed = true) (fixed' : w.toBounds.isFixed = true)
    (le : v.endMin ≤ w.startMin)

/-- The domains in which a call switches a precedence off without having settled it: both intervals
are optional with known bounds, which contradict the literal; or they are the same interval, and
making it end before it starts leaves known bounds with the end after the start. -/
inductive Blind (p : Precedence) (d : Domains) : Prop
  | optional (value : Bool) (v w : Interval) (decided : d.Decides p.before value)
    (row : d.interval (p.earlier value) = .ok v) (row' : d.interval (p.later value) = .ok w)
    (undecided : v.isOptional = true) (undecided' : w.isOptional = true)
    (fixed : v.toBounds.isFixed = true) (fixed' : w.toBounds.isFixed = true)
    (lt : w.startMin < v.endMin)
  | twice (value : Bool) (v w : Interval) (same : p.first = p.second)
    (decided : d.Decides p.before value) (row : d.interval p.first = .ok v)
    (present : v.isPresent = true) (squeezed : v.squeeze = some w)
    (fixed : w.toBounds.isFixed = true) (lt : w.startMin < w.endMin)

/-! ## What a run does -/

theorem isVoid_spec {p : Precedence} {s s' : Store} {r : Except Inconsistency Bool}
    (ran : p.isVoid.exec s = .ok (r, s')) :
    s' = s ∧ ∃ void, r = .ok void ∧
      (void = true → s.domains.Lacks p.first ∨ s.domains.Lacks p.second) := by
  obtain ⟨v, row, ran⟩ := exec_inspect_bind_eq_ok_iff.1 ran
  split at ran
  · rename_i absent
    cases ran
    exact ⟨rfl, true, rfl, fun _ => .inl ⟨v, row, absent⟩⟩
  · obtain ⟨w, row', ran⟩ := exec_inspect_bind_eq_ok_iff.1 ran
    cases ran
    exact ⟨rfl, w.isAbsent, rfl, fun absent => .inr ⟨w, row', absent⟩⟩

/-- Unless it decides the literal, deciding the order leaves the store as it is. -/
theorem decideOrder_spec {p : Precedence} {s s' : Store}
    (ran : p.decideOrder.exec s = .ok (.ok (), s')) :
    ∃ v w, s.domains.interval p.first = .ok v ∧ s.domains.interval p.second = .ok w ∧
      (s' = s ∧ (v.isPresent = true → w.isPresent = true → v.endMin ≤ w.startMax) ∨
        v.isPresent = true ∧ w.isPresent = true ∧
          (w.startMax < v.endMin ∨ v.startMax < w.endMin) ∧
          ∃ value, (assign p.before value).exec s = .ok (.ok (), s')) := by
  obtain ⟨v, row, ran⟩ := exec_inspect_bind_eq_ok_iff.1 ran
  obtain ⟨w, row', ran⟩ := exec_inspect_bind_eq_ok_iff.1 ran
  refine ⟨v, w, row, row', ?_⟩
  split at ran
  · rename_i both
    simp only [Bool.and_eq_true] at both
    split at ran
    · exact .inr ⟨both.1, both.2, .inl (by omega), false, ran⟩
    · split at ran
      · exact .inr ⟨both.1, both.2, .inr (by omega), true, ran⟩
      · cases ran
        exact .inl ⟨rfl, fun _ _ => by omega⟩
  · rename_i some
    cases ran
    exact .inl ⟨rfl, fun present present' => absurd (by simp [present, present']) some⟩

/-- The two steps of enforcing an order. -/
theorem enforce_spec {earlier later : IntervalId} {s s' : Store}
    (ran : (enforce earlier later).exec s = .ok (.ok (), s')) :
    ∃ v t w, s.domains.interval earlier = .ok v ∧
      (v.isPresent = true ∧ (tighten later .startMin v.endMin).exec s = .ok (.ok (), t) ∨
        v.isPresent = false ∧ t = s) ∧
      t.domains.interval later = .ok w ∧
      (w.isPresent = true ∧ (tighten earlier .endMax w.startMax).exec t = .ok (.ok (), s') ∨
        w.isPresent = false ∧ s' = t) := by
  have second {t : Store} (ran : (do
      let b ← interval later
      if b.isPresent then tighten earlier .endMax b.startMax : Propagation Unit).exec t =
        .ok (.ok (), s')) :
      ∃ w, t.domains.interval later = .ok w ∧
        (w.isPresent = true ∧ (tighten earlier .endMax w.startMax).exec t = .ok (.ok (), s') ∨
          w.isPresent = false ∧ s' = t) := by
    obtain ⟨w, row', ran⟩ := exec_inspect_bind_eq_ok_iff.1 ran
    refine ⟨w, row', ?_⟩
    split at ran
    · rename_i present
      exact .inl ⟨present, ran⟩
    · rename_i missing
      cases ran
      exact .inr ⟨by simpa using missing, rfl⟩
  obtain ⟨v, row, ran⟩ := exec_inspect_bind_eq_ok_iff.1 ran
  simp only at ran
  split at ran
  · rename_i present
    rcases exec_bind_eq_ok_iff.1 ran with ⟨_, t, first, rest⟩ | ⟨cause, -, impossible⟩
    · obtain ⟨w, row', last⟩ := second rest
      exact ⟨v, t, w, row, .inl ⟨present, first⟩, row', last⟩
    · cases impossible
  · rename_i missing
    obtain ⟨w, row', last⟩ := second ran
    exact ⟨v, s, w, row, .inr ⟨by simpa using missing, rfl⟩, row', last⟩

/-- An order is enforced once the literal is known. -/
theorem enforceOrder_spec {p : Precedence} {s s' : Store}
    (ran : p.enforceOrder.exec s = .ok (.ok (), s')) :
    (∃ value, s.domains.Decides p.before value ∧
      (enforce (p.earlier value) (p.later value)).exec s = .ok (.ok (), s')) ∨
      s' = s ∧ ∀ value, ¬ s.domains.Decides p.before value := by
  obtain ⟨yes, known, ran⟩ := exec_inspect_bind_eq_ok_iff.1 ran
  split at ran
  · rename_i decided
    subst decided
    exact .inl ⟨true, known, ran⟩
  · rename_i undecided
    obtain ⟨no, known', ran⟩ := exec_inspect_bind_eq_ok_iff.1 ran
    split at ran
    · rename_i decided
      subst decided
      exact .inl ⟨false, known', ran⟩
    · rename_i undecided'
      cases ran
      refine .inr ⟨rfl, fun value decided => ?_⟩
      cases value with
      | true => exact undecided (by simpa [known] using show p.before.isTrue _ = .ok true from decided)
      | false =>
        exact undecided' (by simpa [known'] using show p.before.isFalse _ = .ok true from decided)

/-- A precedence is switched off only if both intervals and the literal count as fixed. -/
theorem retire_spec {p : Precedence} {context : Context} {s s' : Store} {status : Status}
    (ran : (p.retire context).exec s = .ok (status, s')) :
    status = .ok () ∧ (s' = s ∨ ∃ v w, s.domains.interval p.first = .ok v ∧
      s.domains.interval p.second = .ok w ∧ v.isFixed = true ∧ w.isFixed = true ∧
      (Variable.literal p.before).isFixed s.domains = .ok true ∧ s'.domains = s.domains) := by
  obtain ⟨v, row, ran⟩ := exec_inspect_bind_eq_ok_iff.1 ran
  split at ran
  · rename_i fixed
    obtain ⟨w, row', ran⟩ := exec_inspect_bind_eq_ok_iff.1 ran
    split at ran
    · rename_i fixed'
      obtain ⟨known, literal, ran⟩ := exec_inspect_bind_eq_ok_iff.1 ran
      split at ran
      · rename_i decided
        subst decided
        obtain ⟨rfl, domains, -, -⟩ := writeCell_spec ran
        exact ⟨rfl, .inr ⟨v, w, row, row', fixed, fixed', literal, domains⟩⟩
      · cases ran
        exact ⟨rfl, .inl rfl⟩
    · cases ran
      exact ⟨rfl, .inl rfl⟩
  · cases ran
    exact ⟨rfl, .inl rfl⟩

/-! ## What a run establishes -/

section Enforce

variable {earlier later : IntervalId} {s s' : Store} (wellFormed : s.domains.WellFormed)
  (ran : (enforce earlier later).exec s = .ok (.ok (), s'))
include wellFormed ran

/-- Placed intervals stand in an order that was enforced. -/
theorem le_of_enforce {start stop start' stop' : Int}
    (placed : s.domains.Places earlier start stop)
    (placed' : s.domains.Places later start' stop') : stop ≤ start' := by
  obtain ⟨v, t, w, row, first, -, -⟩ := enforce_spec ran
  obtain ⟨v', same, present, -, -, last, -⟩ := placed
  rw [row] at same
  cases same
  rcases first with ⟨-, pushed⟩ | ⟨missing, -⟩
  · obtain ⟨wellFormed', narrows, -⟩ := tighten_spec wellFormed pushed
    obtain ⟨w', row', present', first', -, -, -⟩ := placed'.mono wellFormed' narrows
    obtain ⟨old, tightens⟩ := tightens_of_tighten wellFormed pushed row'
      (Interval.isAbsent_eq_false present')
    have := tightens.startMin_le
    simp only [Bounds.tighten] at this
    omega
  · simp [present] at missing

/-- Two intervals with known bounds stand in an order that was enforced, unless neither of them was
present. -/
theorem settled_of_enforce_ne (ne : earlier ≠ later) {v w : Interval}
    (row : s'.domains.interval earlier = .ok v) (row' : s'.domains.interval later = .ok w)
    (there : v.isAbsent = false) (there' : w.isAbsent = false) (fixed : v.toBounds.isFixed = true)
    (fixed' : w.toBounds.isFixed = true) :
    v.endMin ≤ w.startMin ∨ v.isOptional = true ∧ w.isOptional = true ∧ s' = s := by
  simp only [Bounds.isFixed, Bool.and_eq_true, beq_iff_eq] at fixed fixed'
  obtain ⟨v₀, t, w₀, row₀, first, row₁, second⟩ := enforce_spec ran
  rcases second with ⟨-, pushed⟩ | ⟨missing', rfl⟩
  · -- The later interval is as it was when the earlier one had to end before its latest start.
    have wellFormed₁ : t.domains.WellFormed := by
      rcases first with ⟨-, pushed⟩ | ⟨-, rfl⟩
      · exact (tighten_spec wellFormed pushed).1
      · exact wellFormed
    obtain ⟨_, _, _, _, _, _, rows, -⟩ := tighten_spec wellFormed₁ pushed
    rw [rows, if_neg ne, row₁] at row'
    cases row'
    obtain ⟨old, tightens⟩ := tightens_of_tighten wellFormed₁ pushed row there
    have := tightens.le_endMax
    simp only [Bounds.tighten] at this
    exact .inl (by omega)
  · rw [row₁] at row'
    cases row'
    rcases first with ⟨present, pushed⟩ | ⟨missing, rfl⟩
    · obtain ⟨_, _, _, _, _, _, rows, -⟩ := tighten_spec wellFormed pushed
      rw [rows, if_neg (Ne.symm ne), row₀] at row
      cases row
      obtain ⟨old, tightens⟩ := tightens_of_tighten wellFormed pushed row₁ there'
      have := tightens.startMin_le
      simp only [Bounds.tighten] at this
      exact .inl (by omega)
    · rw [row₀] at row
      cases row
      exact .inr ⟨Interval.isOptional_eq_true missing there,
        Interval.isOptional_eq_true missing' there', rfl⟩

end Enforce

/-- An interval that is made to end before it starts is squeezed, unless it was not present. -/
theorem squeezed_of_enforce {i : IntervalId} {s s' : Store} (wellFormed : s.domains.WellFormed)
    (ran : (enforce i i).exec s = .ok (.ok (), s')) {v : Interval}
    (row : s'.domains.interval i = .ok v) (there : v.isAbsent = false) :
    v.isOptional = true ∧ s' = s ∨
      ∃ u, s.domains.interval i = .ok u ∧ u.isPresent = true ∧ u.squeeze = some v ∧
        u.endMin ≤ u.startMax := by
  obtain ⟨u, t, w, row₀, ⟨present, pushed⟩ | ⟨missing, rfl⟩, row₁, second⟩ := enforce_spec ran
  · obtain ⟨wellFormed₁, narrows, old, new, here, updated, rows, -⟩ := tighten_spec wellFormed pushed
    rw [row₀] at here
    cases here
    obtain ⟨w₁, row₂, narrower⟩ := narrows.interval _ _ row₀
    rw [row₁] at row₂
    cases row₂
    have left := row₁
    rw [rows, if_pos rfl] at left
    cases left
    rcases second with ⟨present', pushed'⟩ | ⟨missing, -⟩
    · obtain ⟨-, -, old, new, here', updated', rows', -⟩ := tighten_spec wellFormed₁ pushed'
      rw [row₁] at here'
      cases here'
      rw [rows', if_pos rfl] at row
      cases row
      have le : u.endMin ≤ u.startMax := by
        have low := (Interval.tightens_of_update? (wellFormed.interval _ _ row₀) updated
          (Interval.isAbsent_eq_false present')).startMin_le
        have high := narrower.tightens.le_startMax
        have := (wellFormed₁.interval _ _ row₁).start_le
        simp only [Bounds.tighten] at low
        omega
      exact .inr ⟨u, row₀, present, by simp [Interval.squeeze, updated, updated'], le⟩
    · simp [narrower.isPresent present] at missing
  · rw [row₀] at row₁
    cases row₁
    rcases second with ⟨present, -⟩ | ⟨-, rfl⟩
    · simp [present] at missing
    · rw [row₀] at row
      cases row
      exact .inl ⟨Interval.isOptional_eq_true missing there, rfl⟩

/-- Intervals with known bounds stand in an order that was enforced, unless neither of them was
present, or they are the same. -/
theorem settled_of_enforce {earlier later : IntervalId} {s s' : Store}
    (wellFormed : s.domains.WellFormed) (ran : (enforce earlier later).exec s = .ok (.ok (), s'))
    {v w : Interval} (row : s'.domains.interval earlier = .ok v)
    (row' : s'.domains.interval later = .ok w) (there : v.isAbsent = false)
    (there' : w.isAbsent = false) (fixed : v.toBounds.isFixed = true)
    (fixed' : w.toBounds.isFixed = true) :
    v.endMin ≤ w.startMin ∨ v.isOptional = true ∧ w.isOptional = true ∧ s' = s ∨
      earlier = later ∧ ∃ u, s.domains.interval earlier = .ok u ∧ u.isPresent = true ∧
        u.squeeze = some v ∧ u.endMin ≤ u.startMax := by
  by_cases same : earlier = later
  · subst same
    rw [row] at row'
    cases row'
    rcases squeezed_of_enforce wellFormed ran row there with ⟨optional, rfl⟩ | squeezed
    · exact .inr (.inl ⟨optional, optional, rfl⟩)
    · exact .inr (.inr ⟨rfl, squeezed⟩)
  · rcases settled_of_enforce_ne wellFormed ran same row row' there there' fixed fixed' with
      le | undecided
    · exact .inl le
    · exact .inr (.inl undecided)

/-- Deciding the order writes no cell. -/
theorem evolves_of_decideOrder {p : Precedence} {s s' : Store} {r : Status}
    (wellFormed : s.domains.WellFormed) (ran : p.decideOrder.exec s = .ok (r, s')) :
    s.Evolves [] s' :=
  p.performs_decideOrder.evolves _ _ _ wellFormed ran

/-- The literal is not assigned if one of the intervals is optional. -/
theorem eq_of_decideOrder {p : Precedence} {s t : Store} {value : Bool} {v : Interval}
    (wellFormed : s.domains.WellFormed) (decided : p.decideOrder.exec s = .ok (.ok (), t))
    (row : t.domains.interval (p.earlier value) = .ok v) (optional : v.isOptional = true) :
    t = s := by
  obtain ⟨a, b, rowA, rowB, ⟨rfl, -⟩ | ⟨presentA, presentB, -⟩⟩ := decideOrder_spec decided
  · rfl
  · have narrows := (evolves_of_decideOrder wellFormed decided).domains.narrows
    obtain ⟨a', rowA', narrower⟩ := narrows.interval _ a rowA
    obtain ⟨b', rowB', narrower'⟩ := narrows.interval _ b rowB
    have present : v.isPresent = true := by
      cases value with
      | true =>
        obtain rfl : a' = v := Except.ok.inj (rowA'.symm.trans row)
        exact narrower.isPresent presentA
      | false =>
        obtain rfl : b' = v := Except.ok.inj (rowB'.symm.trans row)
        exact narrower'.isPresent presentB
    simp only [Interval.isPresent, Interval.isOptional, beq_iff_eq] at present optional
    simp [present] at optional

/-- Nor is it if both intervals are the same, and that one can still end before it starts. -/
theorem eq_of_decideOrder_self {p : Precedence} {s t : Store} {v : Interval}
    (wellFormed : s.domains.WellFormed) (decided : p.decideOrder.exec s = .ok (.ok (), t))
    (same : p.first = p.second) (row : t.domains.interval p.first = .ok v)
    (fits : v.endMin ≤ v.startMax) : t = s := by
  obtain ⟨a, b, rowA, rowB, ⟨rfl, -⟩ | ⟨-, -, crossed, -⟩⟩ := decideOrder_spec decided
  · rfl
  · rw [← same, rowA] at rowB
    cases rowB
    have narrows := (evolves_of_decideOrder wellFormed decided).domains.narrows
    obtain ⟨a', rowA', narrower⟩ := narrows.interval _ a rowA
    obtain rfl : a' = v := Except.ok.inj (rowA'.symm.trans row)
    have := narrower.tightens.endMin_le
    have := narrower.tightens.le_startMax
    omega

/-- Enforcing an order writes no cell. -/
theorem evolves_of_enforceOrder {p : Precedence} {s s' : Store} {r : Status}
    (wellFormed : s.domains.WellFormed) (ran : p.enforceOrder.exec s = .ok (r, s')) :
    s.Evolves [] s' :=
  p.performs_enforceOrder.evolves _ _ _ wellFormed ran

/-- The ways in which a run comes to an end: an interval is absent, one of the two steps fails, or
both succeed and the precedence may be switched off. -/
inductive Ran (p : Precedence) (context : Context) (s s' : Store) : Status → Prop
  | void (lacks : s.domains.Lacks p.first ∨ s.domains.Lacks p.second)
    (off : (setActive context false).exec s = .ok (.ok (), s')) : Ran p context s s' (.ok ())
  | failed (cause : Inconsistency) (cells : s'.cells.values = s.cells.values) :
    Ran p context s s' (.error cause)
  | enforced (t u : Store) (decided : p.decideOrder.exec s = .ok (.ok (), t))
    (enforced : p.enforceOrder.exec t = .ok (.ok (), u))
    (retired : (p.retire context).exec u = .ok (.ok (), s')) : Ran p context s s' (.ok ())

theorem ran_of_propagate {p : Precedence} {context : Context} {s s' : Store} {status : Status}
    (wellFormed : s.domains.WellFormed) (ran : (p.propagate context).exec s = .ok (status, s')) :
    Ran p context s s' status := by
  rcases exec_bind_eq_ok_iff.1 ran with ⟨void, t, looked, rest⟩ | ⟨cause, looked, rfl⟩
  swap
  · obtain ⟨-, void, impossible, -⟩ := isVoid_spec looked
    cases impossible
  obtain ⟨rfl, _, eq, lacks⟩ := isVoid_spec looked
  cases eq
  split at rest
  · rename_i absent
    obtain ⟨rfl, -⟩ := writeCell_spec rest
    exact .void (lacks absent) rest
  rcases exec_bind_eq_ok_iff.1 rest with ⟨_, u, decided, rest⟩ | ⟨cause, decided, rfl⟩
  swap
  · exact .failed cause (evolves_of_decideOrder wellFormed decided).cells.values_eq
  have first := evolves_of_decideOrder wellFormed decided
  rcases exec_bind_eq_ok_iff.1 rest with ⟨_, w, enforced, rest⟩ | ⟨cause, enforced, rfl⟩
  · obtain ⟨rfl, -⟩ := retire_spec rest
    exact .enforced u w decided enforced rest
  · have second := evolves_of_enforceOrder first.wellFormed enforced
    exact .failed cause (second.cells.values_eq.trans first.cells.values_eq)

section Run

variable {p : Precedence} {s t u : Store} (wellFormed : s.domains.WellFormed)
  (binary : s.domains.Binary p.before) (decided : p.decideOrder.exec s = .ok (.ok (), t))
  (enforced : p.enforceOrder.exec t = .ok (.ok (), u))
include wellFormed binary decided enforced

/-- If a run gets through, placed intervals are in order. -/
theorem ordered_of_enforceOrder : p.Ordered s.domains := by
  have first := evolves_of_decideOrder wellFormed decided
  have binary' := binary.mono first.domains.narrows
  obtain ⟨v, w, row, row', order⟩ := decideOrder_spec decided
  intro start stop start' stop' placed placed'
  rcases enforceOrder_spec enforced with ⟨value, known, ran⟩ | ⟨-, unknown⟩
  · have here := placed.mono first.wellFormed first.domains.narrows
    have here' := placed'.mono first.wellFormed first.domains.narrows
    have other (answer : Bool) (claimed : s.domains.Decides p.before answer) : answer = value := by
      have later := binary.decides_mono wellFormed first.wellFormed first.domains.narrows claimed
      exact binary'.eq_of_decides first.wellFormed later known
    cases value with
    | true =>
      have le := le_of_enforce first.wellFormed ran here here'
      exact ⟨.inl le, fun _ => le, fun no => absurd (other false no) (by simp)⟩
    | false =>
      have le := le_of_enforce first.wellFormed ran here' here
      exact ⟨.inr le, fun yes => absurd (other true yes) (by simp), fun _ => le⟩
  · have undecided (answer : Bool) : ¬ s.domains.Decides p.before answer := fun claimed =>
      unknown answer
        (binary.decides_mono wellFormed first.wellFormed first.domains.narrows claimed)
    obtain ⟨v', same, present, -, -, last, -⟩ := placed
    obtain ⟨w', same', present', -, first', -, -⟩ := placed'
    rw [row] at same
    rw [row'] at same'
    cases same
    cases same'
    rcases order with ⟨-, fits⟩ | ⟨-, -, -, value, assigned⟩
    · have := fits present present'
      exact ⟨.inl (by omega), fun yes => absurd yes (undecided true),
        fun no => absurd no (undecided false)⟩
    · obtain ⟨d, wrote, rfl⟩ := exec_change_eq_ok_iff.1 assigned
      exact absurd (binary.decides_of_assign wellFormed wrote) (unknown value)

/-- If a run gets through and leaves both intervals and the literal fixed, nothing is left to do,
unless the precedence was blind to a conflict. -/
theorem settled_of_enforceOrder (sees : ¬ p.Blind s.domains) {v w : Interval}
    (row : u.domains.interval p.first = .ok v) (row' : u.domains.interval p.second = .ok w)
    (fixed : v.isFixed = true) (fixed' : w.isFixed = true)
    (literal : (Variable.literal p.before).isFixed u.domains = .ok true) :
    p.Settled u.domains := by
  have first := evolves_of_decideOrder wellFormed decided
  have second := evolves_of_enforceOrder first.wellFormed enforced
  have binary₁ := binary.mono first.domains.narrows
  have binary₂ := binary₁.mono second.domains.narrows
  cases there : v.isAbsent with
  | true => exact .first ⟨v, row, there⟩
  | false =>
  cases there' : w.isAbsent with
  | true => exact .second ⟨w, row', there'⟩
  | false =>
  simp only [Interval.isFixed, there, there', Bool.false_or] at fixed fixed'
  obtain ⟨value, known⟩ := binary₂.decides_of_isFixed second.wellFormed literal
  rcases enforceOrder_spec enforced with ⟨value', known', ran⟩ | ⟨rfl, unknown⟩
  swap
  · exact absurd known (unknown value)
  have later := binary₁.decides_mono first.wellFormed second.wellFormed second.domains.narrows known'
  obtain rfl : value' = value := binary₂.eq_of_decides second.wellFormed later known
  obtain ⟨x, y, rowX, rowY, thereX, thereY, fixedX, fixedY⟩ : ∃ x y,
      u.domains.interval (p.earlier value') = .ok x ∧ u.domains.interval (p.later value') = .ok y ∧
        x.isAbsent = false ∧ y.isAbsent = false ∧ x.toBounds.isFixed = true ∧
        y.toBounds.isFixed = true := by
    cases value' with
    | true => exact ⟨v, w, row, row', there, there', fixed, fixed'⟩
    | false => exact ⟨w, v, row', row, there', there, fixed', fixed⟩
  by_cases le : x.endMin ≤ y.startMin
  · exact .ordered value' x y known rowX rowY fixedX fixedY le
  rcases settled_of_enforce first.wellFormed ran rowX rowY thereX thereY fixedX fixedY with
    le' | ⟨optional, optional', rfl⟩ | ⟨same, z, rowZ, present, squeezed, fits⟩
  · exact absurd le' le
  · -- Nothing was tightened, and no literal was assigned, since neither interval is present.
    obtain rfl := eq_of_decideOrder wellFormed decided rowX optional
    exact absurd (.optional value' x y known rowX rowY optional optional' fixedX fixedY
      (by omega)) sees
  · have equal : p.first = p.second := by
      cases value' with
      | true => exact same
      | false => exact same.symm
    have earlier : p.earlier value' = p.first := by
      cases value' with
      | true => rfl
      | false => exact equal.symm
    have laterEq : p.later value' = p.first := same.symm.trans earlier
    rw [earlier] at rowX rowZ
    rw [laterEq, rowX] at rowY
    cases rowY
    obtain rfl := eq_of_decideOrder_self wellFormed decided equal rowZ fits
    exact absurd (.twice value' z x equal known' rowZ present squeezed fixedX (by omega)) sees

end Run

/-! ## The guarantee -/

theorem Settled.mono {p : Precedence} {d d' : Domains} (h : p.Settled d)
    (binary : d.Binary p.before) (wellFormed : d.WellFormed) (wellFormed' : d'.WellFormed)
    (narrows : d.Narrows d') : p.Settled d' := by
  cases h with
  | first lacks => exact .first (lacks.mono narrows)
  | second lacks => exact .second (lacks.mono narrows)
  | ordered value v w decided row row' fixed fixed' le =>
    have known := binary.decides_mono wellFormed wellFormed' narrows decided
    obtain ⟨v', rowV, narrowerV⟩ := narrows.interval _ v row
    obtain ⟨w', rowW, narrowerW⟩ := narrows.interval _ w row'
    obtain ⟨v1, v2, v3, v4, -, -⟩ := narrowerV.tightens
    obtain ⟨w1, w2, w3, w4, -, -⟩ := narrowerW.tightens
    have settledV := wellFormed'.interval _ v' rowV
    have settledW := wellFormed'.interval _ w' rowW
    have startV := settledV.start_le
    have endV := settledV.end_le
    have startW := settledW.start_le
    have endW := settledW.end_le
    simp only [Bounds.isFixed, Bool.and_eq_true, beq_iff_eq] at fixed fixed'
    refine .ordered value v' w' known rowV rowW ?_ ?_ (by omega) <;>
      · simp only [Bounds.isFixed, Bool.and_eq_true, beq_iff_eq]
        omega

/-- What is settled is in order. -/
theorem Settled.ordered_of_binary {p : Precedence} {d : Domains} (h : p.Settled d)
    (binary : d.Binary p.before) (wellFormed : d.WellFormed) : p.Ordered d := by
  intro start stop start' stop' placed placed'
  cases h with
  | first lacks => exact absurd placed lacks.not_places
  | second lacks => exact absurd placed' lacks.not_places
  | ordered value v w decided row row' fixed fixed' le =>
    obtain ⟨x, rowX, -, firstX, -, lastX, -⟩ := placed
    obtain ⟨y, rowY, -, firstY, -, lastY, -⟩ := placed'
    cases value with
    | true =>
      rw [show p.earlier true = p.first from rfl, rowX] at row
      rw [show p.later true = p.second from rfl, rowY] at row'
      cases row
      cases row'
      have le : stop ≤ start' := by omega
      refine ⟨.inl le, fun _ => le, fun no => ?_⟩
      cases binary.eq_of_decides wellFormed decided (show d.Decides p.before false from no)
    | false =>
      rw [show p.earlier false = p.second from rfl, rowY] at row
      rw [show p.later false = p.first from rfl, rowX] at row'
      cases row
      cases row'
      have le : stop' ≤ start := by omega
      refine ⟨.inr le, fun yes => ?_, fun _ => le⟩
      cases binary.eq_of_decides wellFormed decided (show d.Decides p.before true from yes)

/-- What is known about a precedence: its intervals exist, its literal is one, and it is switched
off only when nothing is left to do. -/
structure Standing (p : Precedence) (activity : CellId) (q : Rule) (d : Domains)
    (values : Table Int) : Prop where
  rule : q = .precedence p
  first : p.first.index < d.intervals.size
  second : p.second.index < d.intervals.size
  binary : d.Binary p.before
  inside : activity.index < values.size
  off : values.get? activity.index = some 0 → p.Settled d

/-- Placed intervals are in the order that the literal states, as long as no call is blind to a
conflict. -/
def guarantee (p : Precedence) : Guarantee where
  Accepts d := d.Binary p.before → p.Ordered d
  Invariant := Standing p
  Allowed _ d := ¬ p.Blind d
  Watches v event := ∃ watch ∈ p.blueprint.watches, watch.Tells v event

variable {p : Precedence}

theorem Standing.mono {activity : CellId} {q : Rule} {d d' : Domains} {values values' : Table Int}
    (h : Standing p activity q d values) (wellFormed : d.WellFormed) (wellFormed' : d'.WellFormed)
    (narrows : d.Narrows d')
    (same : ∀ cell ∈ activity :: q.cells, values'.get? cell.index = values.get? cell.index) :
    Standing p activity q d' values' := by
  have activityCell := same activity (by simp)
  refine ⟨h.rule, Nat.lt_of_lt_of_le h.first narrows.extends.intervals,
    Nat.lt_of_lt_of_le h.second narrows.extends.intervals, h.binary.mono narrows, ?_, fun zero =>
      (h.off (by rw [← activityCell, zero])).mono h.binary wellFormed wellFormed' narrows⟩
  obtain ⟨flag, known⟩ := Table.exists_get? h.inside
  rw [← activityCell] at known
  exact Table.lt_size_of_get? known

theorem standing_of_run {context : Context} {q q' : Rule} {status : Status} {st st' : Store}
    (ran : (Propagator.run context q).run st = .ok ((q', status), st'))
    (wellFormed : st.domains.WellFormed)
    (standing : Standing p context.activity q st.domains st.cells.values)
    (sees : ¬ p.Blind st.domains) :
    q' = q ∧ Standing p context.activity q st'.domains st'.cells.values ∧
      (status = .ok () → p.Ordered st.domains) := by
  have evolves := (Rule.evolves_of_run wellFormed ran).2
  obtain ⟨rfl, first, second, binary, inside, off⟩ := standing
  obtain ⟨p', rfl, lifted⟩ := Rule.lift_spec ran
  obtain ⟨rfl, ran⟩ := Rule.plain_spec lifted
  have narrows := evolves.domains.narrows
  have rest (settles : st'.cells.values.get? context.activity.index = some 0 →
      p'.Settled st'.domains) :
      Standing p' context.activity (.precedence p') st'.domains st'.cells.values :=
    ⟨rfl, Nat.lt_of_lt_of_le first narrows.extends.intervals,
      Nat.lt_of_lt_of_le second narrows.extends.intervals, binary.mono narrows,
      by rw [evolves.cells.size]; exact inside, settles⟩
  cases ran_of_propagate wellFormed ran with
  | void lacks switched =>
    obtain ⟨-, domains, -, -⟩ := writeCell_spec switched
    refine ⟨rfl, rest fun _ => ?_, fun _ => ?_⟩
    · rw [domains]
      rcases lacks with lacks | lacks
      · exact .first lacks
      · exact .second lacks
    · intro start stop start' stop' placed placed'
      rcases lacks with lacks | lacks
      · exact absurd placed lacks.not_places
      · exact absurd placed' lacks.not_places
  | failed cause cells =>
    refine ⟨rfl, rest fun zero => ?_, fun ok => by cases ok⟩
    exact (off (by rw [← cells, zero])).mono binary wellFormed evolves.wellFormed narrows
  | enforced t u decided enforced retired =>
    have first := evolves_of_decideOrder wellFormed decided
    have second := evolves_of_enforceOrder first.wellFormed enforced
    refine ⟨rfl, rest fun zero => ?_, fun _ =>
      ordered_of_enforceOrder wellFormed binary decided enforced⟩
    obtain ⟨-, rfl | ⟨v, w, row, row', fixed, fixed', literal, domains⟩⟩ := retire_spec retired
    · rw [second.cells.values_eq, first.cells.values_eq] at zero
      exact (off zero).mono binary wellFormed evolves.wellFormed narrows
    · rw [domains]
      exact settled_of_enforceOrder wellFormed binary decided enforced sees row row' fixed fixed'
        literal

/-- A precedence gives its guarantee. -/
theorem lawful (p : Precedence) : (guarantee p).Lawful where
  invariant_mono standing wellFormed wellFormed' := standing.mono wellFormed wellFormed'
  run ran wellFormed _ standing sees := by
    obtain ⟨rfl, after, accepts⟩ := standing_of_run ran wellFormed standing sees
    exact ⟨after, rfl, fun cell mem => by simp [after.rule, Rule.sizes] at mem,
      fun _ _ standing _ => standing, fun ok _ => accepts ok⟩
  accepts_of_idle standing wellFormed zero binary :=
    (standing.off zero).ordered_of_binary binary wellFormed
  accepts_or_watches := by
    intro activity q d d' values events standing wellFormed wellFormed' narrows reports accepts
    by_cases told : ∃ v event, (v, event) ∈ events ∧
        ∃ watch ∈ p.blueprint.watches, watch.Tells v event
    · exact .inr told
    · refine .inl fun _ start stop start' stop' placed placed' => ?_
      have ordered := accepts standing.binary
      have before : d.Places p.first start stop := by
        rcases Domains.places_or_reported narrows reports standing.first placed with
          before | ⟨e, any, reported⟩
        · exact before
        · exact absurd ⟨_, e, reported, .interval p.first .anyInterval,
            by simp [blueprint, Blueprint.plain], rfl, any⟩ told
      have before' : d.Places p.second start' stop' := by
        rcases Domains.places_or_reported narrows reports standing.second placed' with
          before | ⟨e, any, reported⟩
        · exact before
        · exact absurd ⟨_, e, reported, .interval p.second .anyInterval,
            by simp [blueprint, Blueprint.plain], rfl, any⟩ told
      have literal (value : Bool) (known : d'.Decides p.before value) :
          d.Decides p.before value := by
        refine (standing.binary.decides_or_reported wellFormed wellFormed' narrows reports
          known).resolve_right fun reported => told ⟨_, _, reported,
            .variable (.literal p.before) .assign, by simp [blueprint, Blueprint.plain], rfl, ?_⟩
        obtain ⟨domain, positive⟩ := p.before
        cases positive <;> simp [Variable.watch, Literal.affine, EventSet.assign, EventSet.reversed,
          Event.reversed]
      obtain ⟨apart, yes, no⟩ := ordered _ _ _ _ before before'
      exact ⟨apart, fun known => yes (literal true known), fun known => no (literal false known)⟩
  accepts_of_narrows := by
    intro d d' wellFormed wellFormed' narrows accepts binary start stop start' stop' placed placed'
    obtain ⟨apart, yes, no⟩ := accepts (binary.mono narrows) _ _ _ _
      (placed.mono wellFormed' narrows) (placed'.mono wellFormed' narrows)
    exact ⟨apart,
      fun known => yes (binary.decides_mono wellFormed wellFormed' narrows
        (show d.Decides p.before true from known)),
      fun known => no (binary.decides_mono wellFormed wellFormed' narrows
        (show d.Decides p.before false from known))⟩

end Precedence

end Scheduling
