import Scheduling.Solver

/-!
# No-overlap constraints

At most one of the listed intervals executes at a time. Every pair gets a literal that says which of
the two comes first. The model of `NoOverlap`, as it is posted.
-/

namespace Scheduling

/-- The propagators that enforce a no-overlap (`NoOverlapPropagationMethod`). -/
inductive NoOverlapMethod
  /-- A precedence for every pair (`Decomposition`). -/
  | pairs
  /-- In addition, a machine over all intervals (`DecompositionWithGlobal`). -/
  | pairsAndMachine
  deriving DecidableEq, Repr

/-- Intervals that may not overlap (`NoOverlap`). -/
structure NoOverlap where
  intervals : List IntervalId
  method : NoOverlapMethod
  deriving DecidableEq, Repr

namespace NoOverlap

/-- The pairs of entries of a list, in the order of their first and then their second entry. -/
def pairs {α : Type} : List α → List (α × α)
  | [] => []
  | a :: rest => rest.map (a, ·) ++ pairs rest

/-- Posts the precedence of a pair: its literal. -/
def postPair (pair : IntervalId × IntervalId) : Posting Rule Literal := do
  let before ← (Session.newLiteral : Session Rule Literal)
  let precedence : Precedence := ⟨pair.1, pair.2, before⟩
  let _ ← Posting.add (precedence.blueprint.map Rule.precedence)
  return before

/-- Posts the constraint: the literals of the pairs (`post_with_handle`). -/
def post (c : NoOverlap) : Posting Rule (List Literal) := do
  if c.intervals.length < 2 then
    (Session.say (.noPairs c.intervals.length) : Session Rule Unit)
    return []
  let literals ← (pairs c.intervals).mapM postPair
  if c.method = .pairsAndMachine then
    let _ ← Posting.add ((Machine.blueprint c.intervals).map Rule.machine)
  return literals

end NoOverlap

end Scheduling
