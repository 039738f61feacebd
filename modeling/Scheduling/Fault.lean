/-!
# Faults

An operation that meets a broken precondition, or an integer that leaves its word, gives up with a
`Fault`. A fault is final: the state in which it arose is dropped, unlike an inconsistency of the
domains, after which the search backtracks and goes on.

* `Fault.message` is the text shown for each cause.
-/

namespace Scheduling

/-- The causes for which an operation gives up. -/
inductive Fault
  /-- A sum left its word. -/
  | additionOverflow
  /-- A difference left its word. -/
  | subtractionOverflow
  /-- A product left its word. -/
  | multiplicationOverflow
  /-- The negation of the least value of a word. -/
  | negationOverflow
  /-- The least value of a word divided by `-1`. -/
  | divisionOverflow
  /-- A division by zero. -/
  | divisionByZero
  /-- An affine view with scale zero was asked for. -/
  | zeroScale
  /-- A table of `size` rows was read or written at `index`. -/
  | indexOutOfBounds (size index : Nat)
  /-- The first `stop` entries of a sequence of `size` entries were asked for. -/
  | rangeOutOfBounds (size stop : Nat)
  /-- A sequence was asked for that no memory can hold. -/
  | sequenceTooLong
  /-- The engine was asked to return to a checkpoint that is not below the current one. -/
  | checkpointAhead
  /-- A trail was asked to return to a checkpoint that is not below its current one. -/
  | trailCheckpointAhead
  /-- A position outside a sparse set was to be removed. -/
  | positionOutsideSet
  /-- A rank beyond the leaves of a completion-time tree. -/
  | rankOutsideTree
  /-- The completion time of a tree that was never given any leaves. -/
  | treeWithoutLeaves
  /-- An integer variable was declared with an empty domain. -/
  | emptyIntegerDomain (lower upper : Int)
  /-- An interval variable was declared with an empty start or length range. -/
  | emptyIntervalDomain (startMin startMax lengthMin lengthMax : Int)
  /-- The bounds of a new interval admit no value. -/
  | unsupportedInterval
  /-- A loop ran out of the rounds it was given. -/
  | roundsExhausted
  deriving DecidableEq, Repr

/-- The text of a fault. -/
def Fault.message : Fault → String
  | additionOverflow => "attempt to add with overflow"
  | subtractionOverflow => "attempt to subtract with overflow"
  | multiplicationOverflow => "attempt to multiply with overflow"
  | negationOverflow => "attempt to negate with overflow"
  | divisionOverflow => "attempt to divide with overflow"
  | divisionByZero => "attempt to divide by zero"
  | zeroScale => "assertion `left != right` failed: Multiplication by zero is not invertable"
  | indexOutOfBounds size index =>
    s!"index out of bounds: the len is {size} but the index is {index}"
  | rangeOutOfBounds size stop =>
    s!"range end index {stop} out of range for slice of length {size}"
  | sequenceTooLong => "capacity overflow"
  | checkpointAhead => "assertion failed: checkpoint < self.get_checkpoint()"
  | trailCheckpointAhead => "assertion failed: new_checkpoint < self.current_checkpoint"
  | positionOutsideSet => "assertion failed: index < size"
  | rankOutsideTree => "assertion failed: position < self.nodes.len()"
  | treeWithoutLeaves => "assertion failed: !self.nodes.is_empty()"
  | emptyIntegerDomain lower upper => s!"the domain [{lower}, {upper}] is empty"
  | emptyIntervalDomain startMin startMax lengthMin lengthMax =>
    s!"the interval with start [{startMin}, {startMax}] " ++
      s!"and length [{lengthMin}, {lengthMax}] is empty"
  | unsupportedInterval => "the bounds of an interval should admit a value"
  | roundsExhausted => "the propagation did not reach a fixpoint"

end Scheduling
