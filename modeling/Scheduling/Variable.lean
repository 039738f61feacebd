import Scheduling.Domains
import Scheduling.Word

/-!
# Integer variables and their views

A constraint is stated over variables that need not be domains themselves: a literal reads a domain
of `0` and `1` as a truth value or as its negation, and an affine view `scale * x + offset` stands
for the values of another variable. Views are layered, and every layer computes in words of 32 bits.
Models of `IntegerVariable`, `Literal` and `AffineView`.

* `Variable.eval`: the value of a variable, given that of the domain underneath.
* `Variable.bound`, `Variable.setBound`: reading and tightening one side through all layers. A
  negative scale exchanges the sides.
* `Variable.watch`: the events of the domain underneath that show as given events of the variable.
-/

namespace Scheduling

/-- The map `v ↦ scale * v + offset` (`AffineView`). -/
structure Affine where
  scale : Int
  offset : Int
  deriving DecidableEq, Repr

namespace Affine

/-- The image of a value. -/
def eval (f : Affine) (v : Int) : Int := f.scale * v + f.offset

/-- The image of a value, as a word (`map`). -/
def apply (f : Affine) (v : Int) : Except Fault Int := do
  Width.w32.add (← Width.w32.mul f.scale v) f.offset

/-- The side of the argument that decides a side of the image. -/
def side (f : Affine) (s : Side) : Side := if f.scale < 0 then s.opposite else s

/-- The outermost argument on its side whose image does not pass `v`: least arguments are rounded up
and greatest ones down (`invert`). -/
def invert (f : Affine) (s : Side) (v : Int) : Except Fault Int := do
  let shifted ← Width.w32.sub v f.offset
  match s with
  | .lower => Width.w32.divideUp shifted f.scale
  | .upper => Width.w32.divideDown shifted f.scale

end Affine

/-- A truth value: a domain of `0` and `1`, or its negation (`Literal`). -/
structure Literal where
  domain : IntegerId
  positive : Bool
  deriving DecidableEq, Repr

namespace Literal

/-- The literal that is true when this one is false (`not`). -/
def negate (l : Literal) : Literal := { l with positive := !l.positive }

/-- The value of the literal as a map of its domain: `x` or `1 - x`. -/
def affine (l : Literal) : Affine := if l.positive then ⟨1, 0⟩ else ⟨-1, 1⟩

end Literal

/-- A variable: a domain, a literal, or an affine view of another variable (`IntegerVariable`). -/
inductive Variable
  | plain (x : IntegerId)
  | literal (l : Literal)
  | affine (inner : Variable) (f : Affine)
  deriving DecidableEq, Repr

namespace Variable

/-- The domain underneath all layers. -/
def base : Variable → IntegerId
  | plain x => x
  | literal l => l.domain
  | affine inner _ => inner.base

/-- The value of the variable when the domain underneath has the value `v`. -/
def eval : Variable → Int → Int
  | plain _, v => v
  | literal l, v => l.affine.eval v
  | affine inner f, v => f.eval (inner.eval v)

/-- A new layer; its scale must not be zero (`new`). -/
def view (inner : Variable) (scale offset : Int) : Except Fault Variable :=
  if scale = 0 then .error .zeroScale else .ok (affine inner ⟨scale, offset⟩)

/-- The variable multiplied by `k` (`scaled`). The outermost layer takes the factor, if there is
one. -/
def scaled (v : Variable) (k : Int) : Except Fault Variable :=
  match v with
  | affine inner f => do
    return affine inner ⟨← Width.w32.mul f.scale k, ← Width.w32.mul f.offset k⟩
  | v => v.view k 0

/-- The variable moved by `k` (`offset`). The outermost layer takes the summand, if there is one. -/
def shifted (v : Variable) (k : Int) : Except Fault Variable :=
  match v with
  | affine inner f => do return affine inner ⟨f.scale, ← Width.w32.add f.offset k⟩
  | v => v.view 1 k

/-- One end of the values that the variable can take (`lower_bound` and `upper_bound`). -/
def bound (v : Variable) (side : Side) (d : Domains) : Except Fault Int :=
  match v with
  | plain x => do return (← d.integer x).bound side
  | literal l => do l.affine.apply ((← d.integer l.domain).bound (l.affine.side side))
  | affine inner f => do f.apply (← inner.bound (f.side side) d)

/-- The least value that the variable can take. -/
def lower (v : Variable) (d : Domains) : Except Fault Int := v.bound .lower d

/-- The greatest value that the variable can take. -/
def upper (v : Variable) (d : Domains) : Except Fault Int := v.bound .upper d

/-- Only one value is left. -/
def isFixed (v : Variable) (d : Domains) : Except Fault Bool := do
  return (← v.lower d) == (← v.upper d)

/-- Removes the values beyond `value` on one side; `none` if none is left (`set_lower_bound` and
`set_upper_bound`). -/
def setBound (v : Variable) (side : Side) (value : Int) (d : Domains) :
    Except Fault (Option Domains) :=
  match v with
  | plain x => d.tighten x side value
  | literal l => do
    d.tighten l.domain (l.affine.side side) (← l.affine.invert (l.affine.side side) value)
  | affine inner f => do inner.setBound (f.side side) (← f.invert (f.side side) value) d

/-- The events of the domain underneath that show as the given events of the variable
(`watch_all`). -/
def watch : Variable → EventSet → EventSet
  | plain _, events => events
  | literal l, events => if l.affine.scale < 0 then events.reversed else events
  | affine inner f, events => inner.watch (if f.scale < 0 then events.reversed else events)

end Variable

namespace Literal

/-- The literal is certainly true (`is_true`). -/
def isTrue (l : Literal) (d : Domains) : Except Fault Bool := do
  return (← (Variable.literal l).lower d) == 1

/-- The literal is certainly false (`is_false`). -/
def isFalse (l : Literal) (d : Domains) : Except Fault Bool := do
  return (← (Variable.literal l).upper d) == 0

/-- The truth value of the literal, once it is known (`get_literal_value`). -/
def value? (l : Literal) (d : Domains) : Except Fault (Option Bool) := do
  if ← l.isTrue d then return some true
  if ← l.isFalse d then return some false
  return none

/-- Gives the literal a truth value; `none` if it has the other one (`assign`). -/
def assign (l : Literal) (value : Bool) (d : Domains) : Except Fault (Option Domains) :=
  if value then (Variable.literal l).setBound .lower 1 d
  else (Variable.literal l).setBound .upper 0 d

@[simp] theorem negate_negate (l : Literal) : l.negate.negate = l := by
  cases l; simp [negate]

theorem eval_negate (l : Literal) (v : Int) :
    (Variable.literal l.negate).eval v = 1 - (Variable.literal l).eval v := by
  obtain ⟨domain, positive⟩ := l
  cases positive with
  | true =>
    show -1 * v + 1 = 1 - (1 * v + 0)
    omega
  | false =>
    show 1 * v + 0 = 1 - (-1 * v + 1)
    omega

end Literal

end Scheduling
