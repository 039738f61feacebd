import Scheduling.Proofs.Computation

/-!
# Truth values of literals

The domain of a literal holds no values but `0` and `1`. Once only one of them is left, the literal
is known, and it stays as it is.

Results:
* `Domains.Binary`: the domain of a literal has no further values.
* `Domains.Decides`: the truth value of a literal is known.
* `Domains.Binary.decides_of_isFixed`: a literal with one value left is true or false.
* `Domains.Binary.decides_of_assign`: what an assignment leaves.
* `Domains.Binary.decides_mono`, `Domains.Binary.decides_or_reported`: a known literal stays known,
  and none becomes known without an event that says so.
-/

namespace Scheduling

namespace Domains

/-- The domain of the literal exists and has no values but `0` and `1`. -/
def Binary (d : Domains) (l : Literal) : Prop :=
  ∃ row, d.integer l.domain = .ok row ∧ 0 ≤ row.lower ∧ row.upper ≤ 1

/-- The literal is known to have the truth value. -/
def Decides (d : Domains) (l : Literal) (value : Bool) : Prop :=
  (if value then l.isTrue d else l.isFalse d) = .ok true

/-- The domain of a literal with a known truth value. -/
def point (l : Literal) (value : Bool) : IntegerDomain :=
  if l.positive = value then ⟨1, 1⟩ else ⟨0, 0⟩

variable {d d' : Domains} {l : Literal} {value : Bool} {row : IntegerDomain}

theorem point_eq (l : Literal) (value : Bool) : ∃ n, point l value = ⟨n, n⟩ := by
  unfold point
  split
  · exact ⟨1, rfl⟩
  · exact ⟨0, rfl⟩

theorem Binary.mono (h : d.Binary l) (narrows : d.Narrows d') : d'.Binary l := by
  obtain ⟨row, here, least, most⟩ := h
  obtain ⟨row', here', narrower⟩ := narrows.integer _ row here
  exact ⟨row', here', Int.le_trans least narrower.lower_le, Int.le_trans narrower.upper_le most⟩

/-- The ends of a literal are those of its domain or, for a negation, their complements. -/
theorem bound_literal (here : d.integer l.domain = .ok row) (wellFormed : row.WellFormed)
    (least : 0 ≤ row.lower) (most : row.upper ≤ 1) (s : Side) :
    (Variable.literal l).bound s d =
      .ok (if l.positive then row.bound s else 1 - row.bound s.opposite) := by
  have le := wellFormed.lower_le
  refine (Variable.bound_eq_ok_iff here wellFormed).2 ?_
  obtain ⟨domain, positive⟩ := l
  cases positive <;> cases s <;>
    simp [Variable.Fits, Variable.side, Variable.eval, Affine.Fits, Affine.side, Affine.eval,
      Literal.affine, Side.opposite, IntegerDomain.bound, Width.Holds, Width.least,
      Width.greatest] <;> omega

theorem decides_iff (here : d.integer l.domain = .ok row) (wellFormed : row.WellFormed)
    (least : 0 ≤ row.lower) (most : row.upper ≤ 1) : d.Decides l value ↔ row = point l value := by
  have le := wellFormed.lower_le
  have ends := bound_literal here wellFormed least most
  obtain ⟨domain, positive⟩ := l
  obtain ⟨lower, upper⟩ := row
  simp only at le least most
  cases positive <;> cases value <;>
    simp [Decides, Literal.isTrue, Literal.isFalse, Variable.lower, Variable.upper, ends, bind,
      Except.bind, pure, Except.pure, point, IntegerDomain.bound, Side.opposite] <;> omega

namespace Binary

variable (h : d.Binary l) (wellFormed : d.WellFormed)
include h wellFormed

theorem decides_mono (wellFormed' : d'.WellFormed) (narrows : d.Narrows d')
    (known : d.Decides l value) : d'.Decides l value := by
  obtain ⟨row, here, least, most⟩ := h
  obtain ⟨row', here', narrower⟩ := narrows.integer _ row here
  have rowWellFormed' := wellFormed'.integer _ row' here'
  obtain ⟨low, high⟩ := narrower
  refine (decides_iff here' rowWellFormed' (by omega) (by omega)).2 ?_
  rw [decides_iff here (wellFormed.integer _ row here) least most] at known
  have le := rowWellFormed'.lower_le
  obtain ⟨n, eq⟩ := point_eq l value
  rw [known, eq] at low high
  rw [eq]
  obtain ⟨lower, upper⟩ := row'
  simp only [IntegerDomain.mk.injEq] at *
  omega

/-- A literal has one truth value only. -/
theorem eq_of_decides {value' : Bool} (known : d.Decides l value) (known' : d.Decides l value') :
    value = value' := by
  obtain ⟨row, here, least, most⟩ := h
  have rowWellFormed := wellFormed.integer _ row here
  rw [decides_iff here rowWellFormed least most] at known known'
  rw [known] at known'
  unfold point at known'
  cases sign : l.positive <;> cases value <;> cases value' <;> simp [sign] at known' <;> rfl

/-- A literal with one value left is true or false. -/
theorem decides_of_isFixed (fixed : (Variable.literal l).isFixed d = .ok true) :
    ∃ value, d.Decides l value := by
  obtain ⟨row, here, least, most⟩ := h
  have rowWellFormed := wellFormed.integer _ row here
  have le := rowWellFormed.lower_le
  simp only [Variable.isFixed, Variable.lower, Variable.upper,
    bound_literal here rowWellFormed least most, bind, Except.bind, pure, Except.pure,
    Side.opposite, IntegerDomain.bound, Except.ok.injEq, beq_iff_eq] at fixed
  have known (value : Bool) : d.Decides l value ↔ row = point l value :=
    decides_iff here rowWellFormed least most
  have ends : row = ⟨0, 0⟩ ∨ row = ⟨1, 1⟩ := by
    obtain ⟨lower, upper⟩ := row
    simp only [IntegerDomain.mk.injEq]
    split at fixed <;> simp only at * <;> omega
  cases sign : l.positive <;> rcases ends with eq | eq
  · exact ⟨true, (known true).2 (by simp [point, sign, eq])⟩
  · exact ⟨false, (known false).2 (by simp [point, sign, eq])⟩
  · exact ⟨false, (known false).2 (by simp [point, sign, eq])⟩
  · exact ⟨true, (known true).2 (by simp [point, sign, eq])⟩

/-- After an assignment the literal is known. -/
theorem decides_of_assign (assigned : l.assign value d = .ok (some d')) : d'.Decides l value := by
  have wellFormed' := (evolves_of_assign wellFormed assigned).1
  have narrows := (evolves_of_assign wellFormed assigned).2.narrows
  obtain ⟨row', here', least, most⟩ := h.mono narrows
  have rowWellFormed' := wellFormed'.integer _ row' here'
  have le := rowWellFormed'.lower_le
  refine (decides_iff here' rowWellFormed' least most).2 ?_
  have kept (s : Side) (bound : Int) (set : (Variable.literal l).setBound s bound d = .ok (some d'))
      (y : Int) (mem : row'.Admits y) : s.Keeps bound (l.affine.eval y) := by
    rw [Variable.setBound_eq] at set
    obtain ⟨mapped, inverted, tightened⟩ := bind_eq_ok_iff.1 set
    obtain ⟨old, new, -, updated, integers, -⟩ := integer_of_tighten tightened
    have row := integers l.domain
    rw [here', if_pos (show (Variable.literal l).base = l.domain from rfl)] at row
    cases row
    exact (Variable.keeps_iff_of_invert inverted y).1
      ((IntegerDomain.admits_of_update? updated).1 mem).2
  obtain ⟨lower, upper⟩ := row'
  have first := fun s bound set => kept s bound set lower ⟨Int.le_refl _, le⟩
  have last := fun s bound set => kept s bound set upper ⟨le, Int.le_refl _⟩
  cases value with
  | true =>
    have low := first .lower 1 assigned
    have high := last .lower 1 assigned
    simp only [Side.Keeps, Affine.eval, Literal.affine] at low high
    unfold point
    cases sign : l.positive <;> simp [sign] at * <;> omega
  | false =>
    have low := first .upper 0 assigned
    have high := last .upper 0 assigned
    simp only [Side.Keeps, Affine.eval, Literal.affine] at low high
    unfold point
    cases sign : l.positive <;> simp [sign] at * <;> omega

/-- A literal that is known was known before, unless an event says that it has become so. -/
theorem decides_or_reported {events : List (Watched × Event)} (wellFormed' : d'.WellFormed)
    (narrows : d.Narrows d') (reports : d.Reports d' events) (known : d'.Decides l value) :
    d.Decides l value ∨ (.integer l.domain, .assign) ∈ events := by
  obtain ⟨row, here, least, most⟩ := h
  obtain ⟨row', here', narrower⟩ := narrows.integer _ row here
  obtain ⟨low, high⟩ := narrower
  rw [decides_iff here' (wellFormed'.integer _ row' here') (by omega) (by omega)] at known
  by_cases same : row' = row
  · left
    rw [decides_iff here (wellFormed.integer _ row here) least most]
    rw [← same, known]
  · right
    refine reports.assign _ row row' here here' same ?_
    obtain ⟨n, eq⟩ := point_eq l value
    rw [known, eq]

end Binary

end Domains

end Scheduling
