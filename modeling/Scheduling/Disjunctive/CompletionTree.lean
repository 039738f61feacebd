import Scheduling.Memory
import Scheduling.Word

/-!
# Trees of completion times

A set of tasks, ranked by their earliest starts, in a tree that knows the earliest time at which all
of them can be completed one after the other. A leaf holds the task of its rank, or nothing; every
inner node holds what its two halves come to together. The model of `ThetaTree`.

* `Summary.merge`: what two sets of tasks come to, if those of the second start later.
* `Node.Merged`: every inner node is the merge of its halves; kept by `Node.set`
  (`Node.merged_set`).
-/

namespace Scheduling

/-- The earliest completion time of a set of tasks and the sum of their durations (`Node`). -/
structure Summary where
  completion : Int
  duration : Int
  deriving DecidableEq, Repr

namespace Summary

/-- No tasks. -/
def none : Summary := ⟨Width.w64.least, 0⟩

/-- Both sets together: the tasks on the right follow those on the left, or complete later on their
own. The sum of a completion time and durations saturates. -/
def merge (left right : Summary) : Except Fault Summary := do
  let duration ← Width.w64.add left.duration right.duration
  let following := Width.w64.saturate (left.completion + right.duration)
  return ⟨max right.completion following, duration⟩

end Summary

/-- A perfect binary tree of summaries. -/
inductive Node
  | leaf (s : Summary)
  | inner (s : Summary) (left right : Node)
  deriving DecidableEq, Repr

namespace Node

/-- What the tasks below a node come to. -/
def summary : Node → Summary
  | leaf s => s
  | inner s _ _ => s

/-- The tree of the given depth without tasks. -/
def blank : Nat → Node
  | 0 => leaf .none
  | depth + 1 =>
    let half := blank depth
    inner .none half half

/-- Replaces the leaf of a rank in a tree of the given depth, and the nodes above it. -/
def set : Nat → Node → Nat → Summary → Except Fault Node
  | depth + 1, inner _ left right, rank, s => do
    let (left, right) ←
      if rank < Nat.pow 2 depth then pure (← set depth left rank s, right)
      else pure (left, ← set depth right (rank - Nat.pow 2 depth) s)
    return inner (← left.summary.merge right.summary) left right
  | _, _, _, s => return leaf s

/-- Every inner node holds what its halves come to together. -/
def Merged : Node → Prop
  | leaf _ => True
  | inner s left right =>
    left.summary.merge right.summary = .ok s ∧ left.Merged ∧ right.Merged

theorem merged_blank (depth : Nat) : (blank depth).Merged := by
  induction depth with
  | zero => trivial
  | succ depth ih => cases depth <;> exact ⟨rfl, ih, ih⟩

theorem merged_set {depth : Nat} {t u : Node} {rank : Nat} {s : Summary} (merged : t.Merged)
    (h : t.set depth rank s = .ok u) : u.Merged := by
  induction depth generalizing t u rank with
  | zero => cases h; trivial
  | succ depth ih =>
    cases t with
    | leaf => cases h; trivial
    | inner top left right =>
      obtain ⟨_, mergedLeft, mergedRight⟩ := merged
      simp only [set, Nat.pow_eq, bind, Except.bind, pure, Except.pure] at h
      split at h
      · cases below : set depth left rank s with
        | error => simp [below] at h
        | ok left =>
          simp only [below] at h
          cases joined : left.summary.merge right.summary with
          | error => simp [joined] at h
          | ok top =>
            simp only [joined] at h
            cases h
            exact ⟨joined, ih mergedLeft below, mergedRight⟩
      · cases below : set depth right (rank - 2 ^ depth) s with
        | error => simp [below] at h
        | ok right =>
          simp only [below] at h
          cases joined : left.summary.merge right.summary with
          | error => simp [joined] at h
          | ok top =>
            simp only [joined] at h
            cases h
            exact ⟨joined, mergedLeft, ih mergedRight below⟩

end Node

/-- A set of ranked tasks; before the first `reset` it has no room for any (`ThetaTree`). -/
structure CompletionTree where
  depth : Nat
  root : Option Node
  deriving DecidableEq, Repr

namespace CompletionTree

/-- The tree without leaves. -/
def empty : CompletionTree := ⟨0, .none⟩

/-- The least depth of a tree with `tasks` leaves. -/
def depthFor (tasks : Nat) : Nat := if tasks ≤ 1 then 0 else (tasks - 1).log2 + 1

/-- Room for the given number of tasks, and none of them in the set. -/
def reset (tasks : Nat) : CompletionTree := ⟨depthFor tasks, some (.blank (depthFor tasks))⟩

/-- The number of nodes of a tree with room for the given number of tasks: one less than twice the
number of its leaves. -/
def nodesFor (tasks : Nat) : Except Fault Nat := do
  return (← Memory.mulIndex 2 (Nat.pow 2 (depthFor tasks))) - 1

/-- A tree with room for the given number of tasks, if memory can hold its nodes (`reset`). -/
def create (tasks : Nat) : Except Fault CompletionTree := do
  Memory.reserve (← nodesFor tasks) 16
  return reset tasks

/-- The number of nodes above the leaves, which come first when nodes are counted level by level. -/
def nodesAbove (t : CompletionTree) : Nat :=
  match t.root with
  | some _ => Nat.pow 2 t.depth - 1
  | .none => 0

/-- Replaces the leaf of a rank; a rank beyond the leaves is a fault (`upheap`). -/
def set (t : CompletionTree) (rank : Nat) (s : Summary) : Except Fault CompletionTree := do
  let _ ← Memory.addIndex t.nodesAbove rank
  match t.root with
  | some root =>
    if Nat.pow 2 t.depth ≤ rank then throw .rankOutsideTree
    return { t with root := some (← root.set t.depth rank s) }
  | .none => throw .rankOutsideTree

/-- Puts a task into the set, given its earliest completion on its own and its duration
(`insert`). -/
def insert (t : CompletionTree) (rank : Nat) (completion duration : Int) :
    Except Fault CompletionTree :=
  t.set rank ⟨completion, duration⟩

/-- Takes a task out of the set (`remove`). -/
def remove (t : CompletionTree) (rank : Nat) : Except Fault CompletionTree := t.set rank .none

/-- The earliest completion time of the set (`ect`). -/
def completion (t : CompletionTree) : Except Fault Int :=
  match t.root with
  | some root => .ok root.summary.completion
  | .none => .error .treeWithoutLeaves

end CompletionTree

end Scheduling
