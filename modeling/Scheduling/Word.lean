import Scheduling.Fault

/-!
# Arithmetic on words

Bounds, heights and capacities are integers that have to fit a signed word of 32 or 64 bits. The
operations work on `Int` and stop with a `Fault` where the exact result does not fit, so that a
result is always the mathematical one.

* `Width.add_eq_ok_iff`, `Width.sub_eq_ok_iff`, `Width.mul_eq_ok_iff`: an operation answers exactly
  when its mathematical result fits the word, and then with that result.
* `Width.holds_saturate`: a saturated value fits the word.
* `Width.wrap_eq_self`: wrapping keeps a value that fits.
-/

namespace Scheduling

/-- The widths of signed words. -/
inductive Width
  /-- Words of 32 bits: bounds, values and heights. -/
  | w32
  /-- Words of 64 bits: capacities, loads and sums of durations. -/
  | w64
  deriving DecidableEq, Repr

namespace Width

/-- The least value of a word. -/
def least : Width → Int
  | w32 => -2147483648
  | w64 => -9223372036854775808

/-- The greatest value of a word. -/
def greatest : Width → Int
  | w32 => 2147483647
  | w64 => 9223372036854775807

/-- The number of values of a word. -/
def span : Width → Nat
  | w32 => 4294967296
  | w64 => 18446744073709551616

/-- The value fits the word. -/
def Holds (w : Width) (v : Int) : Prop := w.least ≤ v ∧ v ≤ w.greatest

instance (w : Width) (v : Int) : Decidable (w.Holds v) :=
  inferInstanceAs (Decidable (_ ∧ _))

/-- The value, if it fits the word. -/
def narrow (w : Width) (cause : Fault) (v : Int) : Except Fault Int :=
  if w.Holds v then .ok v else .error cause

/-- The sum of two words. -/
def add (w : Width) (a b : Int) : Except Fault Int := w.narrow .additionOverflow (a + b)

/-- The difference of two words. -/
def sub (w : Width) (a b : Int) : Except Fault Int := w.narrow .subtractionOverflow (a - b)

/-- The product of two words. -/
def mul (w : Width) (a b : Int) : Except Fault Int := w.narrow .multiplicationOverflow (a * b)

/-- The negation of a word. -/
def neg (w : Width) (a : Int) : Except Fault Int := w.narrow .negationOverflow (-a)

/-- Only the least value divided by `-1` has a quotient outside the word. -/
def divisible (w : Width) (a b : Int) : Except Fault Unit :=
  if b = 0 then .error .divisionByZero
  else if a = w.least ∧ b = -1 then .error .divisionOverflow
  else .ok ()

/-- The quotient rounded to the next smaller integer (`div_floor`). -/
def divideDown (w : Width) (a b : Int) : Except Fault Int := do
  w.divisible a b
  return a.fdiv b

/-- The quotient rounded to the next greater integer (`div_ceil`). -/
def divideUp (w : Width) (a b : Int) : Except Fault Int := do
  w.divisible a b
  return -(-a).fdiv b

/-- The nearest value of the word (`to_bound`). -/
def saturate (w : Width) (v : Int) : Int := max w.least (min v w.greatest)

/-- The value of the word that is congruent to `v` modulo the number of its values. -/
def wrap (w : Width) (v : Int) : Int := v.bmod w.span

theorem narrow_eq_ok_iff {w : Width} {cause : Fault} {v r : Int} :
    w.narrow cause v = .ok r ↔ w.Holds v ∧ r = v := by
  unfold narrow; split <;> simp_all [eq_comm]

theorem narrow_eq_error_iff {w : Width} {cause fault : Fault} {v : Int} :
    w.narrow cause v = .error fault ↔ ¬ w.Holds v ∧ fault = cause := by
  unfold narrow; split <;> simp_all [eq_comm]

theorem add_eq_ok_iff {w : Width} {a b r : Int} : w.add a b = .ok r ↔ w.Holds (a + b) ∧ r = a + b :=
  narrow_eq_ok_iff

theorem add_eq_error_iff {w : Width} {a b : Int} {fault : Fault} :
    w.add a b = .error fault ↔ ¬ w.Holds (a + b) ∧ fault = .additionOverflow :=
  narrow_eq_error_iff

theorem sub_eq_ok_iff {w : Width} {a b r : Int} : w.sub a b = .ok r ↔ w.Holds (a - b) ∧ r = a - b :=
  narrow_eq_ok_iff

theorem mul_eq_ok_iff {w : Width} {a b r : Int} : w.mul a b = .ok r ↔ w.Holds (a * b) ∧ r = a * b :=
  narrow_eq_ok_iff

theorem neg_eq_ok_iff {w : Width} {a r : Int} : w.neg a = .ok r ↔ w.Holds (-a) ∧ r = -a :=
  narrow_eq_ok_iff

theorem holds_saturate (w : Width) (v : Int) : w.Holds (w.saturate v) := by
  cases w <;> simp only [Holds, saturate, least, greatest] <;> omega

theorem saturate_eq_self {w : Width} {v : Int} (h : w.Holds v) : w.saturate v = v := by
  cases w <;> simp only [Holds, saturate, least, greatest] at * <;> omega

theorem holds_wrap (w : Width) (v : Int) : w.Holds (w.wrap v) := by
  cases w
  · have lower := Int.le_bmod (x := v) (m := 4294967296) (by decide)
    have upper := Int.bmod_lt (x := v) (m := 4294967296) (by decide)
    simp only [Holds, wrap, least, greatest, span]; omega
  · have lower := Int.le_bmod (x := v) (m := 18446744073709551616) (by decide)
    have upper := Int.bmod_lt (x := v) (m := 18446744073709551616) (by decide)
    simp only [Holds, wrap, least, greatest, span]; omega

theorem wrap_eq_self {w : Width} {v : Int} (h : w.Holds v) : w.wrap v = v := by
  cases w <;> simp only [Holds, wrap, least, greatest, span] at * <;>
    exact Int.bmod_eq_of_le (by omega) (by omega)

end Width

end Scheduling
