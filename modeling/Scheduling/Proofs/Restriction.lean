import Mathlib.Order.Interval.Set.Defs
import Scheduling.Proofs.Solutions
import Scheduling.Proofs.Updates

/-!
# Restricting a variable to a range

The values of a variable are the images of those of its domain under its views, so that they have
gaps. A variable is restricted to a range by two bounds, of which the second one is applied to what
the first one has left, and each is mapped back through all views. This never faults as long as the
bounds of the variable can be computed, and it removes the values outside the range and no others.
It fails if there is none in the range, which may lie between two values.

Results:
* `Variable.exists_invert_of_cuts`: a bound between the ends can be mapped back.
* `Propagation.Filters`: a computation keeps the values of a variable that have a property, or fails
  for want of them; `filters_when` puts two after each other.
* `Propagation.filters_setBound`: one bound.
* `Propagation.filters_restrict`: both bounds.
* `Propagation.restrict_exact`: what this does to the values of the variable.
-/

namespace Scheduling

/-- A bound between the ends of a variable is a word, and can be mapped back through its views. -/
theorem Variable.exists_invert_of_cuts {v : Variable} {d : Domains} {row : IntegerDomain}
    {side : Side} {low high value : Int} (known : d.integer v.base = .ok row)
    (wellFormed : row.WellFormed) (lower : v.lower d = .ok low) (upper : v.upper d = .ok high)
    (cuts : side.Cuts low high value) :
    Width.w32.saturate value = value ∧ ∃ bound, v.invert side value = .ok bound := by
  obtain ⟨fitsLow, rfl⟩ := (bound_eq_ok_iff known wellFormed).1 lower
  obtain ⟨fitsHigh, rfl⟩ := (bound_eq_ok_iff known wellFormed).1 upper
  have fits (side : Side) : v.Fits (row.bound side) := by
    rcases v.side_eq side with eq | eq <;> rw [← eq] <;> assumption
  have word : Width.w32.Holds value := by
    have least := fitsLow.holds_eval
    have greatest := fitsHigh.holds_eval
    cases side <;> simp only [Side.Cuts, Width.Holds] at * <;> omega
  exact ⟨Width.saturate_eq_self word, exists_invert wellFormed fits cuts⟩

/-- The stores differ in the domain of one integer variable at most, apart from the record of its
changes. -/
structure Store.ChangesOnly (x : IntegerId) (s s' : Store) : Prop where
  integer : ∀ y, y ≠ x → s'.domains.integer y = s.domains.integer y
  interval : ∀ i, s'.domains.interval i = s.domains.interval i
  cells : s'.cells = s.cells
  notes : s'.notes = s.notes

namespace Store.ChangesOnly

variable {x : IntegerId} {s s' s'' : Store}

theorem refl (x : IntegerId) (s : Store) : s.ChangesOnly x s :=
  ⟨fun _ _ => rfl, fun _ => rfl, rfl, rfl⟩

theorem trans (h : s.ChangesOnly x s') (h' : s'.ChangesOnly x s'') : s.ChangesOnly x s'' where
  integer y other := (h'.integer y other).trans (h.integer y other)
  interval i := (h'.interval i).trans (h.interval i)
  cells := h'.cells.trans h.cells
  notes := h'.notes.trans h.notes

end Store.ChangesOnly

namespace Propagation

/-- The computation removes the values of the variable that do not have the property and no others,
or fails if none has it, where `row` is the domain underneath. -/
def Filters (v : Variable) (row : IntegerDomain) (P : Int → Prop) (x : Propagation Unit)
    (s : Store) : Prop :=
  ∃ result s', x.exec s = .ok (result, s') ∧ s.ChangesOnly v.base s' ∧
    (result = .ok () ∧ (∃ row', s'.domains.integer v.base = .ok row' ∧ row'.WellFormed ∧
        ∀ y, row'.Admits y ↔ row.Admits y ∧ P (v.eval y)) ∨
      result = .error .emptyDomain ∧ ∀ y, row.Admits y → ¬ P (v.eval y))

variable {v : Variable} {row : IntegerDomain} {s : Store} {P Q : Int → Prop}

theorem filters_pure (known : s.domains.integer v.base = .ok row) (wellFormed : row.WellFormed)
    (all : ∀ y, row.Admits y → P (v.eval y)) : Filters v row P (pure ()) s :=
  ⟨.ok (), s, rfl, .refl _ s, .inl ⟨rfl, row, known, wellFormed, fun y =>
    ⟨fun admits => ⟨admits, all y admits⟩, And.left⟩⟩⟩

theorem filters_throw_bind {α : Type} {f : α → Propagation Unit}
    (none : ∀ y, row.Admits y → ¬ P (v.eval y)) :
    Filters v row P (throw .emptyDomain >>= f) s :=
  ⟨_, s, rfl, .refl _ s, .inr ⟨rfl, none⟩⟩

theorem filters_inspect_bind {α : Type} {read : Domains → Except Fault α}
    {f : α → Propagation Unit} {a : α} (known : read s.domains = .ok a)
    (h : Filters v row P (f a) s) : Filters v row P (inspect read >>= f) s := by
  obtain ⟨result, s', ran, rest⟩ := h
  exact ⟨result, s', exec_inspect_bind_eq_ok_iff.2 ⟨a, known, ran⟩, rest⟩

/-- Values are filtered twice, the second time those that are left. -/
theorem filters_bind {x : Propagation Unit} {f : Unit → Propagation Unit}
    (h : Filters v row P x s) (h' : ∀ s' row', s'.domains.integer v.base = .ok row' →
      row'.WellFormed → (∀ y, row'.Admits y → row.Admits y) → Filters v row' Q (f ()) s') :
    Filters v row (fun y => P y ∧ Q y) (x >>= f) s := by
  obtain ⟨_, s₁, ran, only, ⟨rfl, row₁, known, wellFormed, kept⟩ | ⟨rfl, none⟩⟩ := h
  · obtain ⟨result, s₂, ran', only', answer⟩ :=
      h' s₁ row₁ known wellFormed fun y admits => ((kept y).1 admits).1
    refine ⟨result, s₂, exec_bind_eq_ok_iff.2 (.inl ⟨(), s₁, ran, ran'⟩), only.trans only', ?_⟩
    obtain ⟨rfl, row₂, known', wellFormed', kept'⟩ | ⟨rfl, none⟩ := answer
    · exact .inl ⟨rfl, row₂, known', wellFormed', fun y => by rw [kept', kept, and_assoc]⟩
    · exact .inr ⟨rfl, fun y admits ⟨p, q⟩ => none y ((kept y).2 ⟨admits, p⟩) q⟩
  · exact ⟨_, s₁, exec_bind_eq_ok_iff.2 (.inr ⟨_, ran, rfl⟩), only,
      .inr ⟨rfl, fun y admits both => none y admits both.1⟩⟩

/-- Values are filtered on a condition, without which all of them have the property. -/
theorem filters_when {c : Prop} [Decidable c] {x : Propagation Unit} {f : Unit → Propagation Unit}
    (known : s.domains.integer v.base = .ok row) (wellFormed : row.WellFormed)
    (h : c → Filters v row P x s) (skip : ¬ c → ∀ y, row.Admits y → P (v.eval y))
    (h' : ∀ s' row', s'.domains.integer v.base = .ok row' → row'.WellFormed →
      (∀ y, row'.Admits y → row.Admits y) → Filters v row' Q (f ()) s') :
    Filters v row (fun y => P y ∧ Q y) (if c then x >>= f else f ()) s := by
  split
  · rename_i holds
    exact filters_bind (h holds) h'
  · rename_i idle
    exact filters_bind (x := pure ()) (filters_pure known wellFormed (skip idle)) h'

/-- A bound that can be mapped back keeps the values on its side. -/
theorem filters_setBound {side : Side} {value bound : Int}
    (known : s.domains.integer v.base = .ok row) (wellFormed : row.WellFormed)
    (inverts : v.invert side value = .ok bound) :
    Filters v row (side.Keeps value) (setBound v side value) s := by
  have wrote : v.setBound side value s.domains = s.domains.tighten v.base (v.side side) bound := by
    rw [Variable.setBound_eq, inverts]
    rfl
  have ran := exec_change (v.setBound side value) s
  rw [wrote] at ran
  cases updated : row.update? (v.side side) bound with
  | none =>
    have refused : s.domains.tighten v.base (v.side side) bound = .ok none := by
      simp only [Domains.tighten, known, updated, bind, Except.bind, pure, Except.pure]
    rw [refused] at ran
    refine ⟨_, s, ran, .refl _ s, .inr ⟨rfl, fun y admits keeps => ?_⟩⟩
    exact (IntegerDomain.update?_eq_none_iff wellFormed.lower_le).1 updated y admits
      ((Variable.keeps_iff_of_invert inverts y).2 keeps)
  | some new =>
    obtain ⟨d, tightened⟩ : ∃ d, s.domains.tighten v.base (v.side side) bound = .ok (some d) := by
      simp only [Domains.tighten, known, updated, bind, Except.bind]
      split <;> exact ⟨_, rfl⟩
    rw [tightened] at ran
    obtain ⟨old, new', known', updated', integers, intervals⟩ :=
      Domains.integer_of_tighten tightened
    rw [known] at known'
    cases known'
    rw [updated] at updated'
    cases updated'
    refine ⟨_, _, ran, ⟨fun y other => ?_, intervals, rfl, rfl⟩,
      .inl ⟨rfl, new, ?_, ?_, fun y => ?_⟩⟩
    · simp only [integers, if_neg other.symm]
    · simp only [integers, if_true]
    · exact (IntegerDomain.narrows_of_update? wellFormed updated).1
    · rw [IntegerDomain.admits_of_update? updated, Variable.keeps_iff_of_invert inverts]

/-- Both bounds keep the values in the range. -/
theorem filters_restrict {low high : Int} (known : s.domains.integer v.base = .ok row)
    (wellFormed : row.WellFormed) (lower : v.lower s.domains = .ok low)
    (upper : v.upper s.domains = .ok high) (range : Load) :
    Filters v row (· ∈ Set.Icc range.low range.high) (restrict v range) s := by
  have between {y : Int} (admits : row.Admits y) : low ≤ v.eval y ∧ v.eval y ≤ high := by
    obtain ⟨-, rfl⟩ := (Variable.bound_eq_ok_iff known wellFormed).1 lower
    obtain ⟨-, rfl⟩ := (Variable.bound_eq_ok_iff known wellFormed).1 upper
    exact v.eval_bounds admits
  unfold restrict
  refine filters_inspect_bind lower (filters_inspect_bind upper ?_)
  by_cases apart : range.low > high ∨ range.high < low
  · rw [if_pos (by simpa using apart)]
    refine filters_throw_bind fun y admits ⟨ge, le⟩ => ?_
    have := between admits
    omega
  · rw [if_neg (by simpa using apart)]
    show Filters v row (fun y => range.low ≤ y ∧ y ≤ range.high) _ s
    refine filters_when known wellFormed (fun cuts => ?_) (fun idle y admits => ?_)
      fun s₁ row₁ known₁ wellFormed₁ fewer => ?_
    · obtain ⟨word, bound, inverts⟩ := Variable.exists_invert_of_cuts known wellFormed lower upper
        (show Side.lower.Cuts low high range.low from ⟨cuts, by omega⟩)
      rw [word]
      exact filters_setBound known wellFormed inverts
    · have := between admits
      omega
    · split
      · rename_i cuts
        -- The bound is mapped back through the views as if the first one had not been applied.
        obtain ⟨word, bound, inverts⟩ := Variable.exists_invert_of_cuts known wellFormed lower upper
          (show Side.upper.Cuts low high range.high from ⟨by omega, cuts⟩)
        rw [word]
        exact filters_setBound known₁ wellFormed₁ inverts
      · refine filters_pure known₁ wellFormed₁ fun y admits => ?_
        have := between (fewer y admits)
        omega

end Propagation

/-- The values that the variable can take. -/
def Variable.values (v : Variable) (d : Domains) : Set Int :=
  {y | ∃ row x, d.integer v.base = .ok row ∧ row.Admits x ∧ v.eval x = y}

theorem Variable.mem_values_iff {v : Variable} {d : Domains} {row : IntegerDomain}
    (known : d.integer v.base = .ok row) {y : Int} :
    y ∈ v.values d ↔ ∃ x, row.Admits x ∧ v.eval x = y := by
  simp [values, known]

/-- Let the bounds of a variable be such that they can be computed, whatever its views are. Then its
restriction to a range, whichever, does not fault. It succeeds exactly if some value of the variable
lies in the range, and then leaves the values in the range and no others. Otherwise it fails for
want of values. No other domain changes. -/
theorem Propagation.restrict_exact {v : Variable} {s : Store} {row : IntegerDomain}
    {low high : Int} (known : s.domains.integer v.base = .ok row) (wellFormed : row.WellFormed)
    (lower : v.lower s.domains = .ok low) (upper : v.upper s.domains = .ok high) (range : Load) :
    ∃ result s', (restrict v range).exec s = .ok (result, s') ∧
      (result = .ok () ∨ result = .error .emptyDomain) ∧
      (result = .ok () ↔ (v.values s.domains ∩ Set.Icc range.low range.high).Nonempty) ∧
      (result = .ok () →
        v.values s'.domains = v.values s.domains ∩ Set.Icc range.low range.high) ∧
      s.ChangesOnly v.base s' := by
  obtain ⟨_, s', ran, only, ⟨rfl, row', known', wellFormed', kept⟩ | ⟨rfl, none⟩⟩ :=
    filters_restrict known wellFormed lower upper range
  · have left : v.values s'.domains = v.values s.domains ∩ Set.Icc range.low range.high := by
      ext y
      simp only [Set.mem_inter_iff, Variable.mem_values_iff known, Variable.mem_values_iff known',
        kept]
      constructor
      · rintro ⟨x, ⟨admits, inside⟩, rfl⟩
        exact ⟨⟨x, admits, rfl⟩, inside⟩
      · rintro ⟨⟨x, admits, rfl⟩, inside⟩
        exact ⟨x, ⟨admits, inside⟩, rfl⟩
    have some : (v.values s'.domains).Nonempty :=
      ⟨_, (Variable.mem_values_iff known').2 ⟨_, wellFormed'.admits_bound .lower, rfl⟩⟩
    exact ⟨_, s', ran, .inl rfl, ⟨fun _ => left ▸ some, fun _ => rfl⟩, fun _ => left, only⟩
  · have empty : ¬ (v.values s.domains ∩ Set.Icc range.low range.high).Nonempty := by
      rintro ⟨y, taken, inside⟩
      obtain ⟨x, admits, rfl⟩ := (Variable.mem_values_iff known).1 taken
      exact none x admits inside
    exact ⟨_, s', ran, .inr rfl, ⟨nofun, fun some => absurd some empty⟩, nofun, only⟩

namespace Gaps

/-- A domain of the values from `0` to `5`. -/
def store : Store := ⟨Domains.empty.addInteger ⟨0, 5⟩, .empty, []⟩

/-- The odd values from `-11` to `-1`, as two layers that reverse their order. -/
def height : Variable := .affine (.affine (.plain ⟨0⟩) ⟨-1, 3⟩) ⟨2, -7⟩

end Gaps

open Gaps Propagation in
theorem Propagation.restrict_exact_gaps : store.domains.integer height.base = .ok ⟨0, 5⟩ ∧
    IntegerDomain.WellFormed ⟨0, 5⟩ ∧ height.lower store.domains = .ok (-11) ∧
    height.upper store.domains = .ok (-1) ∧ ∃ s',
      (restrict height ⟨-6, -4⟩).exec store = .ok (.ok (), s') ∧
      height.values s'.domains = height.values store.domains ∩ Set.Icc (-6) (-4) := by
  have known : store.domains.integer height.base = .ok ⟨0, 5⟩ := by decide
  have wellFormed : IntegerDomain.WellFormed ⟨0, 5⟩ := ⟨by decide, by decide, by decide⟩
  have lower : height.lower store.domains = .ok (-11) := by decide
  have upper : height.upper store.domains = .ok (-1) := by decide
  obtain ⟨result, s', ran, -, success, left, -⟩ :=
    restrict_exact known wellFormed lower upper ⟨-6, -4⟩
  have taken : (-5 : Int) ∈ height.values store.domains :=
    ⟨_, 2, known, ⟨by decide, by decide⟩, by decide⟩
  obtain rfl := success.2 ⟨-5, taken, by decide, by decide⟩
  exact ⟨known, wellFormed, lower, upper, s', ran, left rfl⟩

open Gaps Propagation in
/-- Nothing is left of a range between two values. -/
example : ∃ s', (restrict height ⟨-4, -4⟩).exec store = .ok (.error .emptyDomain, s') :=
  ⟨_, rfl⟩

end Scheduling
