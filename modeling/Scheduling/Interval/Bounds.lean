import Scheduling.Word

/-!
# Bounds of an interval

The start, the end and the length of an interval are known up to bounds, which are kept consistent
with `start + length = end`: each round derives the bounds of one of the three from the bounds of
the other two, until nothing changes or some range is empty. The model of `make_consistent`.

* `Bounds.Admits`: the placements within the bounds.
* `Bounds.narrow_eq_derived`: within the horizon a round computes the derived bounds unchanged.
* `Bounds.settled_of_propagate`: after a successful propagation a further round changes nothing.
-/

namespace Scheduling

/-- Times lie in `[-horizon, horizon]` (`HORIZON`). -/
def horizon : Int := 536870911

/-- The bounds of the start, the end and the length of an interval. -/
structure Bounds where
  startMin : Int
  startMax : Int
  endMin : Int
  endMax : Int
  lengthMin : Int
  lengthMax : Int
  deriving DecidableEq, Repr

/-- The quantities that bound an interval. -/
inductive Bound
  | startMin
  | startMax
  | endMin
  | endMax
  | lengthMin
  | lengthMax
  deriving DecidableEq, Repr

namespace Bounds

/-- An interval that starts at `start` and lasts `length` lies within the bounds. -/
structure Admits (b : Bounds) (start length : Int) : Prop where
  startMin_le : b.startMin ≤ start
  le_startMax : start ≤ b.startMax
  endMin_le : b.endMin ≤ start + length
  le_endMax : start + length ≤ b.endMax
  lengthMin_le : b.lengthMin ≤ length
  le_lengthMax : length ≤ b.lengthMax

/-- Moves one bound to `value`, unless it is tighter already (`apply_bound`). -/
def tighten (b : Bounds) (bound : Bound) (value : Int) : Bounds :=
  match bound with
  | .startMin => { b with startMin := max b.startMin value }
  | .startMax => { b with startMax := min b.startMax value }
  | .endMin => { b with endMin := max b.endMin value }
  | .endMax => { b with endMax := min b.endMax value }
  | .lengthMin => { b with lengthMin := max b.lengthMin value }
  | .lengthMax => { b with lengthMax := min b.lengthMax value }

/-- Some range is empty (`is_empty`). -/
def isEmpty (b : Bounds) : Bool :=
  b.startMin > b.startMax || b.endMin > b.endMax || b.lengthMin > b.lengthMax

/-- The start and the end are known; the length then is as well (`is_fixed`). -/
def isFixed (b : Bounds) : Bool := b.startMin == b.startMax && b.endMin == b.endMax

/-- What `start + length = end` says about each bound, given the others. -/
def derived (b : Bounds) : Bounds where
  startMin := max b.startMin (b.endMin - b.lengthMax)
  startMax := min b.startMax (b.endMax - b.lengthMin)
  endMin := max b.endMin (b.startMin + b.lengthMin)
  endMax := min b.endMax (b.startMax + b.lengthMax)
  lengthMin := max b.lengthMin (b.endMin - b.startMax)
  lengthMax := min b.lengthMax (b.endMax - b.startMin)

/-- One round: the derived bounds, wrapped into words of 32 bits. -/
def narrow (b : Bounds) : Bounds where
  startMin := Width.w32.wrap b.derived.startMin
  startMax := Width.w32.wrap b.derived.startMax
  endMin := Width.w32.wrap b.derived.endMin
  endMax := Width.w32.wrap b.derived.endMax
  lengthMin := Width.w32.wrap b.derived.lengthMin
  lengthMax := Width.w32.wrap b.derived.lengthMax

/-- Repeats rounds until a range is empty (`false`) or nothing changes (`true`). -/
def settle : Nat → Bounds → Bool × Bounds
  | 0, b => (false, b)
  | rounds + 1, b =>
    if b.isEmpty then (false, b)
    else if b.narrow = b then (true, b)
    else settle rounds b.narrow

/-- Six words of 32 bits have this many values, so that more rounds cannot reach new bounds. -/
def rounds : Nat := 1 <<< 192

/-- Makes the bounds consistent (`make_consistent`). The answer says whether they admit a placement;
if they do not, the bounds are those of the round in which some range became empty. -/
def propagate (b : Bounds) : Bool × Bounds := settle rounds b

/-- No round can leave the words as long as times stay within the horizon. -/
structure WithinHorizon (b : Bounds) : Prop where
  startMin : -horizon ≤ b.startMin ∧ b.startMin ≤ horizon
  startMax : -horizon ≤ b.startMax ∧ b.startMax ≤ horizon
  endMin : -horizon ≤ b.endMin ∧ b.endMin ≤ horizon
  endMax : -horizon ≤ b.endMax ∧ b.endMax ≤ horizon
  lengthMin : 0 ≤ b.lengthMin ∧ b.lengthMin ≤ 2 * horizon
  lengthMax : 0 ≤ b.lengthMax ∧ b.lengthMax ≤ 2 * horizon

theorem narrow_eq_derived {b : Bounds} (h : b.WithinHorizon) : b.narrow = b.derived := by
  obtain ⟨h1, h2, h3, h4, h5, h6⟩ := h
  simp only [horizon] at *
  simp only [narrow, derived, mk.injEq]
  refine ⟨?_, ?_, ?_, ?_, ?_, ?_⟩ <;>
    exact Width.wrap_eq_self (by simp only [Width.Holds, Width.least, Width.greatest]; omega)

theorem admits_derived_iff {b : Bounds} {start length : Int} :
    b.derived.Admits start length ↔ b.Admits start length := by
  constructor
  · intro h
    obtain ⟨h1, h2, h3, h4, h5, h6⟩ := h
    simp only [derived] at *
    constructor <;> omega
  · intro h
    obtain ⟨h1, h2, h3, h4, h5, h6⟩ := h
    constructor <;> simp only [derived] <;> omega

theorem settled_of_settle {rounds : Nat} {b c : Bounds} (h : settle rounds b = (true, c)) :
    c.isEmpty = false ∧ c.narrow = c := by
  induction rounds generalizing b with
  | zero => simp [settle] at h
  | succ rounds ih =>
    unfold settle at h
    split at h
    · simp at h
    · split at h
      · simp_all
      · exact ih h

theorem settled_of_propagate {b c : Bounds} (h : b.propagate = (true, c)) :
    c.isEmpty = false ∧ c.narrow = c :=
  settled_of_settle h

end Bounds

end Scheduling
