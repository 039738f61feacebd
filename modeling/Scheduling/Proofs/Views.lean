import Mathlib.Tactic.Common
import Mathlib.Tactic.Linarith
import Scheduling.Assignment

/-!
# Views as affine maps

A variable reads its domain through layers of affine maps. Read as a whole, the layers are one
monotone or antitone map, so that one end of the domain decides each end of the variable
(`Variable.side`), and a bound is mapped back through the layers by rounding inwards.

Results:
* `Variable.bound_eq_ok_iff`: an end of the variable is the image of the deciding end of the domain, and
  no layer leaves its word there.
* `Variable.fits_of_between`: if no layer leaves its word at the ends of a domain, none does between
  them.
* `Variable.keeps_iff_of_invert`: the bound that a bound of the variable is mapped back to keeps
  exactly the values whose image is kept.
* `Variable.exists_invert`: mapping back a bound that tightens the variable cannot fault.
-/

namespace Scheduling

/-- The domain is not empty, and its ends are words. -/
structure IntegerDomain.WellFormed (d : IntegerDomain) : Prop where
  lower_le : d.lower ≤ d.upper
  lower_holds : Width.w32.Holds d.lower
  upper_holds : Width.w32.Holds d.upper

theorem IntegerDomain.WellFormed.holds_bound {d : IntegerDomain} (h : d.WellFormed) (s : Side) :
    Width.w32.Holds (d.bound s) := by
  cases s
  · exact h.lower_holds
  · exact h.upper_holds

theorem IntegerDomain.WellFormed.admits_bound {d : IntegerDomain} (h : d.WellFormed) (s : Side) :
    d.Admits (d.bound s) := by
  have := h.lower_le
  cases s <;> constructor <;> simp only [IntegerDomain.bound] <;> omega

/-! ## Rounding -/

theorem le_fdiv_iff {a y c : Int} (h : 0 < c) : y ≤ a.fdiv c ↔ y * c ≤ a := by
  rw [Int.fdiv_eq_ediv_of_nonneg _ h.le, Int.le_ediv_iff_mul_le h]

theorem le_fdiv_iff_of_neg {a y c : Int} (h : c < 0) : y ≤ a.fdiv c ↔ a ≤ y * c := by
  rw [← Int.neg_fdiv_neg, le_fdiv_iff (by omega), Int.mul_neg]
  omega

theorem neg_fdiv_le_iff {a y c : Int} (h : 0 < c) : -(-a).fdiv c ≤ y ↔ a ≤ y * c := by
  have := le_fdiv_iff (a := -a) (y := -y) h
  rw [Int.neg_mul] at this
  omega

theorem neg_fdiv_le_iff_of_neg {a y c : Int} (h : c < 0) : -(-a).fdiv c ≤ y ↔ y * c ≤ a := by
  have := le_fdiv_iff_of_neg (a := -a) (y := -y) h
  rw [Int.neg_mul] at this
  omega

/-! ## One layer -/

namespace Affine

/-- The layer does not leave its word at an argument. -/
def Fits (f : Affine) (v : Int) : Prop :=
  Width.w32.Holds (f.scale * v) ∧ Width.w32.Holds (f.eval v)

theorem apply_eq_ok_iff {f : Affine} {v r : Int} : f.apply v = .ok r ↔ f.Fits v ∧ r = f.eval v := by
  simp only [apply, bind, Except.bind, Fits, eval]
  cases product : Width.w32.mul f.scale v with
  | error cause =>
    have : ¬ Width.w32.Holds (f.scale * v) := fun holds => by
      rw [Width.mul_eq_ok_iff.2 ⟨holds, rfl⟩] at product
      cases product
    simp [this]
  | ok p =>
    obtain ⟨holds, rfl⟩ := Width.mul_eq_ok_iff.1 product
    simp [Width.add_eq_ok_iff, holds]

/-- A layer keeps or reverses the order of its arguments. -/
theorem eval_le_eval (f : Affine) {u v : Int} (h : u ≤ v) :
    (0 ≤ f.scale → f.eval u ≤ f.eval v) ∧ (f.scale ≤ 0 → f.eval v ≤ f.eval u) := by
  simp only [eval]
  constructor
  · intro sign
    have := Int.mul_le_mul_of_nonneg_left h sign
    omega
  · intro sign
    have := Int.mul_le_mul_of_nonpos_left sign h
    omega

theorem fits_of_between {f : Affine} {u v w : Int} (low : f.Fits u) (high : f.Fits w)
    (h : u ≤ v ∧ v ≤ w ∨ w ≤ v ∧ v ≤ u) : f.Fits v := by
  have order {a b : Int} (le : a ≤ b) := eval_le_eval f le
  obtain ⟨l1, l2⟩ := low
  obtain ⟨h1, h2⟩ := high
  simp only [eval] at order
  simp only [Fits, eval, Width.Holds] at *
  rcases h with ⟨le, ge⟩ | ⟨le, ge⟩ <;> have := order le <;> have := order ge <;> omega

/-- A bound that is mapped back keeps exactly the arguments whose image is kept. -/
theorem keeps_iff_of_invert {f : Affine} {s : Side} {value bound : Int}
    (h : f.invert (f.side s) value = .ok bound) (y : Int) :
    (f.side s).Keeps bound y ↔ s.Keeps value (f.eval y) := by
  simp only [invert, bind, Except.bind] at h
  split at h
  · cases h
  rename_i shifted moved
  obtain ⟨-, rfl⟩ := Width.sub_eq_ok_iff.1 moved
  have nonzero : f.scale ≠ 0 := by
    intro zero
    cases decided : f.side s <;>
      simp [decided, Width.divideUp, Width.divideDown, Width.divisible, zero, bind,
        Except.bind] at h
  have product : f.eval y = y * f.scale + f.offset := by rw [eval, Int.mul_comm]
  rcases Int.lt_or_gt_of_ne nonzero with negative | positive
  · cases s <;> simp only [side, negative, if_true, Side.opposite, Side.Keeps, product] at h ⊢ <;>
      simp only [Width.divideUp, Width.divideDown, bind, Except.bind, pure, Except.pure] at h <;>
      split at h <;> cases h
    · rw [le_fdiv_iff_of_neg negative]; omega
    · rw [neg_fdiv_le_iff_of_neg negative]; omega
  · have : ¬ f.scale < 0 := by omega
    cases s <;> simp only [side, this, if_false, Side.Keeps, product] at h ⊢ <;>
      simp only [Width.divideUp, Width.divideDown, bind, Except.bind, pure, Except.pure] at h <;>
      split at h <;> cases h
    · rw [neg_fdiv_le_iff positive]; omega
    · rw [le_fdiv_iff positive]; omega

end Affine

/-- A bound on a side that removes some, but not all, of the values from `lower` to `upper`. -/
def Side.Cuts (s : Side) (lower upper value : Int) : Prop :=
  match s with
  | .lower => lower < value ∧ value ≤ upper
  | .upper => lower ≤ value ∧ value < upper

/-- Mapping back a bound that cuts the image of a range through one layer cannot fault, and the
result cuts the range. -/
theorem Affine.exists_invert {f : Affine} {lower upper v : Int} {s : Side}
    (le : lower ≤ upper) (holds : Width.w32.Holds upper) (fitsLower : f.Fits lower)
    (fitsUpper : f.Fits upper)
    (cuts : if f.scale < 0 then s.Cuts (f.eval upper) (f.eval lower) v
      else s.Cuts (f.eval lower) (f.eval upper) v) :
    ∃ bound, f.invert (f.side s) v = .ok bound ∧ (f.side s).Cuts lower upper bound := by
  obtain ⟨l1, l2⟩ := fitsLower
  obtain ⟨u1, u2⟩ := fitsUpper
  have order := f.eval_le_eval le
  have order : (0 ≤ f.scale → f.scale * lower ≤ f.scale * upper) ∧
      (f.scale ≤ 0 → f.scale * upper ≤ f.scale * lower) := by
    simp only [eval] at order
    omega
  have low : f.scale * lower = lower * f.scale := Int.mul_comm ..
  have high : f.scale * upper = upper * f.scale := Int.mul_comm ..
  simp only [Width.Holds, Width.least, Width.greatest] at holds l1 l2 u1 u2
  have nonzero : f.scale ≠ 0 := by
    intro zero
    simp only [zero, Int.lt_irrefl, if_false, eval, Int.zero_mul] at cuts
    cases s <;> simp only [Side.Cuts] at cuts <;> omega
  have inWord : Width.w32.sub v f.offset = .ok (v - f.offset) := by
    refine Width.sub_eq_ok_iff.2 ⟨?_, rfl⟩
    simp only [Width.Holds, Width.least, Width.greatest]
    split at cuts <;> cases s <;> simp only [Side.Cuts, eval] at cuts <;> omega
  have divisible : Width.w32.divisible (v - f.offset) f.scale = .ok () := by
    unfold Width.divisible
    rw [if_neg nonzero, if_neg]
    rintro ⟨least, minus⟩
    have lowMinus : f.scale * lower = -lower := by rw [minus]; omega
    have highMinus : f.scale * upper = -upper := by rw [minus]; omega
    simp only [Width.least, eval] at least l2 u2
    rw [if_pos (by omega)] at cuts
    cases s <;> simp only [Side.Cuts, eval] at cuts <;> omega
  simp only [invert, inWord, bind, Except.bind, Width.divideUp, Width.divideDown, divisible, pure,
    Except.pure]
  by_cases negative : f.scale < 0
  · simp only [negative, if_true, eval] at cuts
    cases s <;> simp only [side, negative, if_true, Side.opposite, Side.Cuts] at cuts ⊢
    · refine ⟨_, rfl, (le_fdiv_iff_of_neg negative).2 (by omega), ?_⟩
      have := (le_fdiv_iff_of_neg (a := v - f.offset) (y := upper) negative).1
      omega
    · refine ⟨_, rfl, ?_, (neg_fdiv_le_iff_of_neg negative).2 (by omega)⟩
      have := (neg_fdiv_le_iff_of_neg (a := v - f.offset) (y := lower) negative).1
      omega
  · have positive : 0 < f.scale := by omega
    simp only [negative, if_false, eval] at cuts
    cases s <;> simp only [side, negative, if_false, Side.Cuts] at cuts ⊢
    · refine ⟨_, rfl, ?_, (neg_fdiv_le_iff positive).2 (by omega)⟩
      have := (neg_fdiv_le_iff (a := v - f.offset) (y := lower) positive).1
      omega
    · refine ⟨_, rfl, (le_fdiv_iff positive).2 (by omega), ?_⟩
      have := (le_fdiv_iff (a := v - f.offset) (y := upper) positive).1
      omega

/-! ## All layers -/

namespace Variable

/-- The end of the domain underneath that decides an end of the variable. -/
def side : Variable → Side → Side
  | plain _, s => s
  | literal l, s => l.affine.side s
  | affine inner f, s => inner.side (f.side s)

/-- No layer leaves its word when the domain underneath has the value `v`. -/
def Fits : Variable → Int → Prop
  | plain _, v => Width.w32.Holds v
  | literal l, v => Width.w32.Holds v ∧ l.affine.Fits v
  | affine inner f, v => inner.Fits v ∧ f.Fits (inner.eval v)

/-- Maps a bound of the variable back to the domain underneath. -/
def invert : Variable → Side → Int → Except Fault Int
  | plain _, _, value => return value
  | literal l, s, value => l.affine.invert (l.affine.side s) value
  | affine inner f, s, value => do inner.invert (f.side s) (← f.invert (f.side s) value)

theorem Fits.holds_eval {v : Variable} {value : Int} (h : v.Fits value) :
    Width.w32.Holds (v.eval value) := by
  cases v with
  | plain x => exact h
  | literal l => exact h.2.2
  | affine inner f => exact h.2.2

theorem eval_le_eval_or (v : Variable) {x y z : Int} (le : x ≤ y) (ge : y ≤ z) :
    v.eval x ≤ v.eval y ∧ v.eval y ≤ v.eval z ∨ v.eval z ≤ v.eval y ∧ v.eval y ≤ v.eval x := by
  induction v with
  | plain => exact .inl ⟨le, ge⟩
  | literal l =>
    have := l.affine.eval_le_eval le
    have := l.affine.eval_le_eval ge
    simp only [eval]
    omega
  | affine inner f ih =>
    simp only [eval]
    rcases ih with ⟨h1, h2⟩ | ⟨h1, h2⟩ <;>
      have := f.eval_le_eval h1 <;> have := f.eval_le_eval h2 <;> omega

theorem fits_of_between {v : Variable} {x y z : Int} (low : v.Fits x) (high : v.Fits z)
    (le : x ≤ y) (ge : y ≤ z) : v.Fits y := by
  induction v with
  | plain =>
    have := low.1
    have := high.2
    exact ⟨by simp only [Width.least] at *; omega, by omega⟩
  | literal l =>
    refine ⟨?_, Affine.fits_of_between low.2 high.2 (.inl ⟨le, ge⟩)⟩
    have := low.1
    have := high.1
    simp only [Width.Holds] at *
    omega
  | affine inner f ih =>
    exact ⟨ih low.1 high.1, Affine.fits_of_between low.2 high.2 (inner.eval_le_eval_or le ge)⟩

/-- The ends of the variable that the ends of the domain decide enclose all its values. -/
theorem eval_bounds (v : Variable) {d : IntegerDomain} {x : Int} (h : d.Admits x) :
    v.eval (d.bound (v.side .lower)) ≤ v.eval x ∧ v.eval x ≤ v.eval (d.bound (v.side .upper)) := by
  induction v with
  | plain => exact h
  | literal l =>
    obtain ⟨h1, h2⟩ := h
    have := l.affine.eval_le_eval h1
    have := l.affine.eval_le_eval h2
    simp only [eval, side, Affine.side]
    split <;> simp only [Side.opposite, IntegerDomain.bound] <;> omega
  | affine inner f ih =>
    have := f.eval_le_eval ih.1
    have := f.eval_le_eval ih.2
    simp only [eval, side, Affine.side]
    by_cases negative : f.scale < 0
    · simp only [negative, if_true, Side.opposite]; omega
    · simp only [negative, if_false]; omega

/-- An end of the variable is the image of the deciding end of the domain. -/
theorem bound_eq_ok_iff {v : Variable} {s : Side} {d : Domains} {x : IntegerDomain} {r : Int}
    (row : d.integer v.base = .ok x) (wellFormed : x.WellFormed) :
    v.bound s d = .ok r ↔ v.Fits (x.bound (v.side s)) ∧ r = v.eval (x.bound (v.side s)) := by
  induction v generalizing s r with
  | plain y =>
    have row : d.integer y = .ok x := row
    simp [bound, row, bind, Except.bind, pure, Except.pure, Fits, side, eval,
      wellFormed.holds_bound, eq_comm]
  | literal l =>
    have row : d.integer l.domain = .ok x := row
    simp [bound, row, bind, Except.bind, Fits, side, eval, wellFormed.holds_bound,
      Affine.apply_eq_ok_iff]
  | affine inner f ih =>
    simp only [bound, bind, Except.bind, Fits, side, eval]
    cases below : inner.bound (f.side s) d with
    | error cause =>
      have : ¬ inner.Fits (x.bound (inner.side (f.side s))) := fun fits => by
        rw [(ih row).2 ⟨fits, rfl⟩] at below
        cases below
      simp [this]
    | ok value =>
      obtain ⟨fits, rfl⟩ := (ih row).1 below
      simp [Affine.apply_eq_ok_iff, fits]

/-- A variable whose ends can be read has a domain underneath. -/
theorem exists_row_of_bound {v : Variable} {s : Side} {d : Domains} {r : Int}
    (h : v.bound s d = .ok r) : ∃ x, d.integer v.base = .ok x := by
  induction v generalizing s r with
  | plain y =>
    cases row : d.integer y with
    | error cause => simp [bound, row, bind, Except.bind] at h
    | ok x => exact ⟨x, row⟩
  | literal l =>
    cases row : d.integer l.domain with
    | error cause => simp [bound, row, bind, Except.bind] at h
    | ok x => exact ⟨x, row⟩
  | affine inner f ih =>
    cases below : inner.bound (f.side s) d with
    | error cause => simp [bound, below, bind, Except.bind] at h
    | ok value => exact ih below

theorem setBound_eq (v : Variable) (s : Side) (value : Int) (d : Domains) :
    v.setBound s value d = (do d.tighten v.base (v.side s) (← v.invert s value)) := by
  induction v generalizing s value with
  | plain => rfl
  | literal => rfl
  | affine inner f ih =>
    simp only [setBound, invert, base, side, ih]
    cases f.invert (f.side s) value <;> rfl

/-- The bound that a bound is mapped back to keeps exactly the values whose image is kept. -/
theorem keeps_iff_of_invert {v : Variable} {s : Side} {value bound : Int}
    (h : v.invert s value = .ok bound) (x : Int) :
    (v.side s).Keeps bound x ↔ s.Keeps value (v.eval x) := by
  induction v generalizing s value with
  | plain => cases h; rfl
  | literal l => exact Affine.keeps_iff_of_invert h x
  | affine inner f ih =>
    simp only [invert, bind, Except.bind] at h
    split at h
    · cases h
    · rename_i next mapped
      exact (ih h).trans (Affine.keeps_iff_of_invert mapped _)

/-- Mapping back a bound that cuts the values of the variable cannot fault. -/
theorem exists_invert {v : Variable} {s : Side} {value : Int} {d : IntegerDomain}
    (wellFormed : d.WellFormed) (fits : ∀ side, v.Fits (d.bound side))
    (cuts : s.Cuts (v.eval (d.bound (v.side .lower))) (v.eval (d.bound (v.side .upper))) value) :
    ∃ bound, v.invert s value = .ok bound := by
  induction v generalizing s value with
  | plain => exact ⟨value, rfl⟩
  | literal l =>
    obtain ⟨bound, mapped, -⟩ := Affine.exists_invert (f := l.affine) (s := s) (v := value)
      wellFormed.lower_le wellFormed.upper_holds (fits .lower).2 (fits .upper).2 (by
        simp only [eval, side, Affine.side] at cuts
        split <;> rename_i sign <;> simpa [sign, Side.opposite, IntegerDomain.bound] using cuts)
    exact ⟨bound, mapped⟩
  | affine inner f ih =>
    have innerFits (side : Side) : inner.Fits (d.bound side) := (fits side).1
    have order := (inner.eval_bounds (wellFormed.admits_bound (inner.side .upper))).1
    obtain ⟨next, mapped, cutsInner⟩ := Affine.exists_invert (f := f) (s := s) (v := value)
      order (innerFits _).holds_eval (fits _).2 (fits _).2 (by
        simp only [eval, side, Affine.side] at cuts
        split <;> rename_i sign <;> simpa [sign, Side.opposite] using cuts)
    obtain ⟨bound, rest⟩ := ih innerFits cutsInner
    exact ⟨bound, by simp [invert, mapped, rest, bind, Except.bind]⟩

/-- The ends of the variable are equal, so that all values of its domain have the same image. -/
theorem eval_eq_of_isFixed {v : Variable} {d : Domains} {x : IntegerDomain}
    (row : d.integer v.base = .ok x) (wellFormed : x.WellFormed) (fixed : v.isFixed d = .ok true)
    {y z : Int} (hy : x.Admits y) (hz : x.Admits z) : v.eval y = v.eval z := by
  simp only [isFixed, lower, upper, bind, Except.bind, pure, Except.pure] at fixed
  split at fixed
  · cases fixed
  rename_i low lowEq
  split at fixed
  · cases fixed
  rename_i high highEq
  obtain ⟨-, rfl⟩ := (bound_eq_ok_iff row wellFormed).1 lowEq
  obtain ⟨-, rfl⟩ := (bound_eq_ok_iff row wellFormed).1 highEq
  have same : v.eval (x.bound (v.side .lower)) = v.eval (x.bound (v.side .upper)) := by
    simpa using fixed
  have := v.eval_bounds hy
  have := v.eval_bounds hz
  omega

end Variable

end Scheduling
