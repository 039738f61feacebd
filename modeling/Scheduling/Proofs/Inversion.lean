import Scheduling.Expression
import Scheduling.Proofs.Computation

/-!
# Bounds that already hold

A bound on a view is mapped back to the domain underneath before it is compared with anything. Each
layer subtracts its offset and divides by its scale, in words, so that a bound can be lost on the
way although the domain has nothing to give up for it. What decides is the bound and the layers
alone: the scales must not be zero, and no difference or quotient may leave its word.

Results:
* `Affine.invert_eq_ok_iff`: what one layer makes of a bound, and when.
* `Variable.exists_invert_iff`: a bound can be mapped back exactly if every layer can do its part.
* `Domains.tighten_of_keeps`: a bound that holds leaves a domain as it is.
* `Variable.setBound_of_keeps`: through any layers, a bound that holds either changes nothing at all
  or is lost in the arithmetic, and which of these is known beforehand.
* `Variable.exists_fault_of_keeps`: views that can be made lose such bounds.
-/

namespace Scheduling

theorem Width.divisible_eq_ok_iff {w : Width} {a b : Int} :
    w.divisible a b = .ok () ↔ b ≠ 0 ∧ ¬ (a = w.least ∧ b = -1) := by
  unfold divisible
  split
  · simp_all
  · split <;> simp_all

/-! ## One layer -/

namespace Affine

/-- Neither the difference to the offset nor its quotient by the scale leaves the word. -/
def Reverts (f : Affine) (value : Int) : Prop :=
  Width.w32.Holds (value - f.offset) ∧ ¬ (value - f.offset = Width.w32.least ∧ f.scale = -1)

instance (f : Affine) (value : Int) : Decidable (f.Reverts value) :=
  inferInstanceAs (Decidable (_ ∧ _))

instance (f : Affine) (value : Int) : Decidable (f.Fits value) :=
  inferInstanceAs (Decidable (_ ∧ _))

/-- The quotient that a bound is mapped back to: a least argument is rounded up and a greatest one
down. -/
def preimage (f : Affine) (s : Side) (value : Int) : Int :=
  match s with
  | .lower => -(-(value - f.offset)).fdiv f.scale
  | .upper => (value - f.offset).fdiv f.scale

theorem invert_eq (f : Affine) (s : Side) (value : Int) :
    f.invert s value = (do
      let shifted ← Width.w32.sub value f.offset
      Width.w32.divisible shifted f.scale
      return f.preimage s (shifted + f.offset)) := by
  unfold invert preimage
  cases s <;> simp only [Int.add_sub_cancel] <;> rfl

/-- A layer maps a bound back if its scale is not zero and the bound stays in its word. -/
theorem invert_eq_ok_iff {f : Affine} {s : Side} {value bound : Int} :
    f.invert s value = .ok bound ↔
      f.scale ≠ 0 ∧ f.Reverts value ∧ bound = f.preimage s value := by
  rw [invert_eq, bind_eq_ok_iff]
  constructor
  · rintro ⟨shifted, moved, rest⟩
    obtain ⟨holds, rfl⟩ := Width.sub_eq_ok_iff.1 moved
    obtain ⟨⟨⟩, divided, last⟩ := bind_eq_ok_iff.1 rest
    obtain ⟨nonzero, fits⟩ := Width.divisible_eq_ok_iff.1 divided
    cases last
    exact ⟨nonzero, ⟨holds, fits⟩, by rw [Int.sub_add_cancel]⟩
  · rintro ⟨nonzero, ⟨holds, fits⟩, rfl⟩
    refine ⟨_, Width.sub_eq_ok_iff.2 ⟨holds, rfl⟩, bind_eq_ok_iff.2 ⟨(), ?_, ?_⟩⟩
    · exact Width.divisible_eq_ok_iff.2 ⟨nonzero, fits⟩
    · rw [Int.sub_add_cancel]
      rfl

end Affine

/-- The causes for which a bound is lost on its way back through a layer. -/
def Fault.IsInversion (fault : Fault) : Prop :=
  fault = .subtractionOverflow ∨ fault = .divisionByZero ∨ fault = .divisionOverflow

theorem Affine.fault_of_invert {f : Affine} {s : Side} {value : Int} {fault : Fault}
    (h : f.invert s value = .error fault) : fault.IsInversion := by
  rw [invert_eq] at h
  simp only [Width.sub, Width.narrow, Width.divisible, bind, Except.bind, pure, Except.pure] at h
  unfold Fault.IsInversion
  split at h
  · rename_i left
    split at left <;> cases left
    cases h
    exact .inl rfl
  · split at h
    · rename_i left
      split at left
      · cases left
        cases h
        exact .inr (.inl rfl)
      · split at left <;> cases left
        cases h
        exact .inr (.inr rfl)
    · cases h

/-! ## All layers -/

namespace Variable

/-- No layer has the scale zero. -/
def IsInvertible : Variable → Prop
  | plain _ => True
  | literal _ => True
  | affine inner f => f.scale ≠ 0 ∧ inner.IsInvertible

/-- The bound stays in its word in all layers on its way back to the domain underneath. -/
def Reverts : Variable → Side → Int → Prop
  | plain _, _, _ => True
  | literal l, _, value => l.affine.Reverts value
  | affine inner f, s, value =>
    f.Reverts value ∧ inner.Reverts (f.side s) (f.preimage (f.side s) value)

instance decidableIsInvertible : (v : Variable) → Decidable v.IsInvertible
  | plain _ => inferInstanceAs (Decidable True)
  | literal _ => inferInstanceAs (Decidable True)
  | affine inner f =>
    have := inner.decidableIsInvertible
    inferInstanceAs (Decidable (f.scale ≠ 0 ∧ inner.IsInvertible))

instance decidableFits : (v : Variable) → (value : Int) → Decidable (v.Fits value)
  | plain _, value => inferInstanceAs (Decidable (Width.w32.Holds value))
  | literal _, _ => inferInstanceAs (Decidable (_ ∧ _))
  | affine inner _, value =>
    have := inner.decidableFits value
    inferInstanceAs (Decidable (_ ∧ _))

instance decidableReverts : (v : Variable) → (s : Side) → (value : Int) →
    Decidable (v.Reverts s value)
  | plain _, _, _ => inferInstanceAs (Decidable True)
  | literal l, _, value => inferInstanceAs (Decidable (l.affine.Reverts value))
  | affine inner f, s, value =>
    have := inner.decidableReverts (f.side s) (f.preimage (f.side s) value)
    inferInstanceAs (Decidable (_ ∧ _))

end Variable

theorem Literal.scale_ne_zero (l : Literal) : l.affine.scale ≠ 0 := by
  unfold affine
  split <;> decide

namespace Variable

/-- A bound can be mapped back exactly if every layer can do its part. -/
theorem exists_invert_iff {v : Variable} {s : Side} {value : Int} :
    (∃ bound, v.invert s value = .ok bound) ↔ v.IsInvertible ∧ v.Reverts s value := by
  induction v generalizing s value with
  | plain => exact ⟨fun _ => ⟨trivial, trivial⟩, fun _ => ⟨value, rfl⟩⟩
  | literal l =>
    simp only [invert, Affine.invert_eq_ok_iff, IsInvertible, Reverts, exists_eq_right, true_and,
      and_iff_right l.scale_ne_zero]
  | affine inner f ih =>
    simp only [invert, bind_eq_ok_iff, Affine.invert_eq_ok_iff, IsInvertible, Reverts]
    constructor
    · rintro ⟨bound, next, ⟨nonzero, here, rfl⟩, rest⟩
      obtain ⟨invertible, reverts⟩ := ih.1 ⟨bound, rest⟩
      exact ⟨⟨nonzero, invertible⟩, here, reverts⟩
    · rintro ⟨⟨nonzero, invertible⟩, here, reverts⟩
      obtain ⟨bound, rest⟩ := ih.2 ⟨invertible, reverts⟩
      exact ⟨bound, _, ⟨nonzero, here, rfl⟩, rest⟩

theorem fault_of_invert {v : Variable} {s : Side} {value : Int} {fault : Fault}
    (h : v.invert s value = .error fault) : fault.IsInversion := by
  induction v generalizing s value with
  | plain => cases h
  | literal l => exact Affine.fault_of_invert h
  | affine inner f ih =>
    simp only [invert, bind, Except.bind] at h
    split at h
    · rename_i lost
      cases h
      exact Affine.fault_of_invert lost
    · exact ih h

end Variable

/-! ## Bounds that hold -/

theorem IntegerDomain.update?_of_keeps {d : IntegerDomain} {s : Side} {bound : Int}
    (h : s.Keeps bound (d.bound s)) : d.update? s bound = some d := by
  cases s <;> exact if_pos h

/-- A bound that holds leaves a domain as it is. -/
theorem Domains.tighten_of_keeps {d : Domains} {x : IntegerId} {row : IntegerDomain} {s : Side}
    {bound : Int} (here : d.integer x = .ok row) (h : s.Keeps bound (row.bound s)) :
    d.tighten x s bound = .ok (some d) := by
  simp [tighten, here, IntegerDomain.update?_of_keeps h, bind, Except.bind, pure, Except.pure]

/-- A bound that a variable satisfies already, whatever its layers are, changes nothing at all if no
layer has the scale zero and the bound stays in its word on the way back. Otherwise it is lost:
although there is nothing to remove, a difference or a quotient cannot be computed. -/
theorem Variable.setBound_of_keeps {v : Variable} {s : Side} {d : Domains} {value r : Int}
    (wellFormed : d.WellFormed) (reads : v.bound s d = .ok r) (holds : s.Keeps value r) :
    (v.setBound s value d = .ok (some d) ↔ v.IsInvertible ∧ v.Reverts s value) ∧
      (¬ (v.IsInvertible ∧ v.Reverts s value) →
        ∃ fault : Fault, fault.IsInversion ∧ v.setBound s value d = .error fault) := by
  obtain ⟨row, here⟩ := exists_row_of_bound reads
  obtain ⟨-, rfl⟩ := (bound_eq_ok_iff here (wellFormed.integer _ row here)).1 reads
  rw [setBound_eq, ← exists_invert_iff]
  cases mapped : v.invert s value with
  | ok bound =>
    have kept : (v.side s).Keeps bound (row.bound (v.side s)) :=
      (keeps_iff_of_invert mapped _).2 holds
    exact ⟨⟨fun _ => ⟨bound, rfl⟩, fun _ => Domains.tighten_of_keeps here kept⟩,
      fun lost => absurd ⟨bound, rfl⟩ lost⟩
  | error fault =>
    have none : ¬ ∃ bound, (.error fault : Except Fault Int) = .ok bound :=
      fun ⟨_, impossible⟩ => by cases impossible
    exact ⟨⟨fun impossible => (by cases impossible), fun some => absurd some none⟩,
      fun _ => ⟨fault, fault_of_invert mapped, rfl⟩⟩

namespace Moved

/-- A domain of the values from `0` to `5`. -/
def domains : Domains := Domains.empty.addInteger ⟨0, 5⟩

/-- The values moved up by one. -/
def up : Expression := ⟨.plain ⟨0⟩, [.summand 1]⟩

/-- The values reversed in two layers. -/
def down : Variable := .affine (.affine (.plain ⟨0⟩) ⟨-1, 3⟩) ⟨2, -7⟩

theorem wellFormed : domains.WellFormed where
  integer x row found := by
    rw [Domains.integer_eq_ok_iff] at found
    simp only [domains, Domains.addInteger, Table.get?_push, Domains.empty,
      Table.get?_empty] at found
    split at found <;> cases found
    exact ⟨by decide, by decide, by decide⟩
  interval i row found := by
    rw [Domains.interval_eq_ok_iff] at found
    simp [domains, Domains.addInteger, Domains.empty] at found

end Moved

open Moved in
theorem Variable.setBound_of_keeps_down : domains.WellFormed ∧
    down.bound .upper domains = .ok (-1) ∧ down.setBound .upper 4 domains = .ok (some domains) :=
  have reads : down.bound .upper domains = .ok (-1) := by decide
  ⟨wellFormed, reads,
    (setBound_of_keeps wellFormed reads (show (-1 : Int) ≤ 4 by decide)).1.2 (by decide)⟩

open Moved in
/-- The values `1` to `6` are all above the least word, but as a bound of them it is lost. -/
theorem Variable.exists_fault_of_keeps : ∃ v, up.build = .ok v ∧ v.bound .lower domains = .ok 1 ∧
    Side.lower.Keeps Width.w32.least 1 ∧ Width.w32.Holds Width.w32.least ∧
    v.setBound .lower Width.w32.least domains = .error .subtractionOverflow :=
  ⟨_, rfl, rfl, show Width.w32.least ≤ 1 by decide, by decide, rfl⟩

end Scheduling
