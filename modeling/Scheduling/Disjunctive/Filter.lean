import Scheduling.Disjunctive.CompletionTree

/-!
# Filtering tasks on one machine

Tasks that may not overlap are filtered from left to right: earliest starts rise and latest ends
fall by reasoning on the tasks that have to come before a task. Three rules are repeated until they
change nothing:

* overload (`Sweep.isOverloadFree`): some tasks do not fit before the latest of their latest ends;
* detectable precedences (`Sweep.raisedStarts`): tasks that must precede a task push its start;
* not-last (`Sweep.loweredEnds`): a task that cannot come last ends before another one starts.

`Tasks.filter` is the filter, and `filterArrays` applies it to the first entries of given arrays,
as `NoOverlapLeftToRight` does.
-/

namespace Scheduling

/-- `n` tasks with their earliest starts, durations and latest ends. -/
structure Tasks (n : Nat) where
  startMin : Vector Int n
  duration : Vector Int n
  endMax : Vector Int n
  deriving DecidableEq

/-- What the filter found (`Outcome`). -/
inductive Verdict
  /-- No bound can be tightened. -/
  | unchanged
  /-- Some bound was tightened. -/
  | changed
  /-- The tasks cannot be scheduled. -/
  | infeasible
  deriving DecidableEq, Repr

/-- The tasks in ascending order of their bounds. -/
structure Orders (n : Nat) where
  byStartMin : List (Fin n)
  byEndMin : List (Fin n)
  byStartMax : List (Fin n)
  byEndMax : List (Fin n)
  deriving DecidableEq

namespace Orders

/-- Sorts tasks by a key; tasks of the same key stay in the order in which they were. -/
def sortBy {n : Nat} (key : Vector Int n) (tasks : List (Fin n)) : List (Fin n) :=
  tasks.mergeSort fun i j => decide (key[i] ≤ key[j])

/-- Every order starts as that of the task numbers (`load`). -/
def initial (n : Nat) : Orders n :=
  ⟨List.finRange n, List.finRange n, List.finRange n, List.finRange n⟩

/-- The place of each task in an order. -/
def ranks {n : Nat} (order : List (Fin n)) : Vector Nat n := Vector.ofFn order.idxOf

end Orders

/-- Tasks with the bounds that follow from their durations, and their orders. -/
structure Sweep (n : Nat) extends Tasks n where
  startMax : Vector Int n
  endMin : Vector Int n
  orders : Orders n
  rank : Vector Nat n

/-- The tasks that a sweep has put into its tree so far, the last of them, and those to come. -/
structure Front (n : Nat) where
  tree : CompletionTree
  inside : Vector Bool n
  last : Option (Fin n)
  waiting : List (Fin n)

namespace Sweep

variable {n : Nat}

/-- The latest start and the earliest end of a task have to fit their words. -/
def checkTask (tasks : Tasks n) (i : Fin n) : Except Fault Unit := do
  let _ ← Width.w64.sub tasks.endMax[i] tasks.duration[i]
  let _ ← Width.w64.add tasks.startMin[i] tasks.duration[i]

/-- Derives the latest starts and earliest ends, and sorts the tasks anew (`update`). -/
def ofTasks (tasks : Tasks n) (orders : Orders n) : Except Fault (Sweep n) := do
  (List.finRange n).forM (checkTask tasks)
  let startMax := Vector.ofFn fun i : Fin n => tasks.endMax[i] - tasks.duration[i]
  let endMin := Vector.ofFn fun i : Fin n => tasks.startMin[i] + tasks.duration[i]
  let orders : Orders n := {
    byStartMin := Orders.sortBy tasks.startMin orders.byStartMin
    byEndMin := Orders.sortBy endMin orders.byEndMin
    byStartMax := Orders.sortBy startMax orders.byStartMax
    byEndMax := Orders.sortBy tasks.endMax orders.byEndMax }
  return { tasks with startMax, endMin, orders, rank := Orders.ranks orders.byStartMin }

/-- Puts a task into a tree. -/
def insert (s : Sweep n) (tree : CompletionTree) (i : Fin n) : Except Fault CompletionTree :=
  tree.insert s.rank[i] s.endMin[i] s.duration[i]

/-- The overload rule on the remaining tasks: after each of them is added, the set can be completed
by its latest end. -/
def fitsAll (s : Sweep n) (tree : CompletionTree) : List (Fin n) → Except Fault Bool
  | [] => return true
  | i :: rest => do
    let tree ← s.insert tree i
    if (← tree.completion) > s.endMax[i] then return false
    s.fitsAll tree rest

/-- No set of tasks is longer than the time from its earliest start to its latest end
(`overload_check`). -/
def isOverloadFree (s : Sweep n) : Except Fault Bool :=
  s.fitsAll (.reset n) s.orders.byEndMax

/-- No task is inside; they will come in the order of their latest starts. -/
def front (s : Sweep n) : Front n :=
  ⟨.reset n, Vector.replicate n false, none, s.orders.byStartMax⟩

/-- Lets in the waiting tasks that have to start before `limit`. -/
def letIn (s : Sweep n) (limit : Int) (tree : CompletionTree) (inside : Vector Bool n)
    (last : Option (Fin n)) : List (Fin n) → Except Fault (Front n)
  | [] => return ⟨tree, inside, last, []⟩
  | i :: waiting => do
    if limit > s.startMax[i] then
      s.letIn limit (← s.insert tree i) (inside.set i true) (some i) waiting
    else return ⟨tree, inside, last, i :: waiting⟩

/-- Lets in the waiting tasks of a front that have to start before `limit`. -/
def advance (s : Sweep n) (f : Front n) (limit : Int) : Except Fault (Front n) :=
  s.letIn limit f.tree f.inside f.last f.waiting

/-- The earliest completion of the tasks inside, but for the given one. -/
def completionWithout (s : Sweep n) (f : Front n) (i : Fin n) : Except Fault Int := do
  if f.inside[i] then (← f.tree.remove s.rank[i]).completion else f.tree.completion

/-- The detectable precedences of the remaining tasks. -/
def raise (s : Sweep n) (f : Front n) (starts : Vector Int n) :
    List (Fin n) → Except Fault (Vector Int n)
  | [] => return starts
  | i :: rest => do
    let f ← s.advance f s.endMin[i]
    let completion ← s.completionWithout f i
    s.raise f (starts.set i (max s.startMin[i] completion)) rest

/-- A task starts no earlier than the tasks can be completed whose latest start is before its
earliest end: they have to precede it (`detectable_precedence`). -/
def raisedStarts (s : Sweep n) : Except Fault (Vector Int n) :=
  s.raise s.front s.startMin s.orders.byEndMin

/-- The not-last rule on the remaining tasks. -/
def lower (s : Sweep n) (f : Front n) (ends : Vector Int n) :
    List (Fin n) → Except Fault (Vector Int n)
  | [] => return ends
  | i :: rest => do
    let f ← s.advance f s.endMax[i]
    let completion ← s.completionWithout f i
    match f.last with
    | some last =>
      if completion > s.startMax[i] then
        s.lower f (ends.set i (min ends[i] s.startMax[last])) rest
      else s.lower f ends rest
    | none => s.lower f ends rest

/-- If the tasks whose latest start is before the latest end of a task cannot be completed before
that task has to start, one of them comes after it, and the task ends by the greatest of their
latest starts (`not_last`). -/
def loweredEnds (s : Sweep n) : Except Fault (Vector Int n) :=
  s.lower s.front s.endMax s.orders.byEndMax

end Sweep

namespace Tasks

variable {n : Nat}

/-- Repeats the rules for at most the given number of rounds. The flag says whether an earlier round
has tightened a bound. -/
def filterLoop : Nat → Bool → Orders n → Tasks n → Except Fault (Verdict × Tasks n)
  | 0, _, _, _ => .error .roundsExhausted
  | rounds + 1, changed, orders, tasks => do
    let s ← Sweep.ofTasks tasks orders
    if !(← s.isOverloadFree) then return (.infeasible, tasks)
    let starts ← s.raisedStarts
    let raised := decide (starts ≠ s.startMin)
    let s ← if raised then Sweep.ofTasks { s.toTasks with startMin := starts } s.orders else pure s
    let ends ← s.loweredEnds
    let lowered := decide (ends ≠ s.endMax)
    let tasks := { s.toTasks with endMax := ends }
    if raised || lowered then filterLoop rounds true s.orders tasks
    else return (if changed then .changed else .unchanged, tasks)

/-- Every round before the last one moves a bound, and a bound of 64 bits moves in one direction. -/
def rounds (n : Nat) : Nat := 2 * Width.w64.span * n + 1

/-- Filters tasks from left to right (`filter`). If they cannot be scheduled, their bounds stay as
they are. -/
def filter (tasks : Tasks n) : Except Fault (Verdict × Tasks n) := do
  match ← tasks.filterLoop (rounds n) false (.initial n) with
  | (.changed, filtered) => return (.changed, filtered)
  | (verdict, _) => return (verdict, tasks)

end Tasks

/-- The first `n` entries of an array; too few of them are a fault. -/
def takeEntries (a : Array Int) (n : Nat) : Except Fault (Vector Int n) :=
  if n ≤ a.size then .ok (Vector.ofFn fun i : Fin n => a.getD i 0)
  else .error (.rangeOutOfBounds a.size n)

/-- Replaces the first `n` entries of an array. -/
def putEntries {n : Nat} (a : Array Int) (entries : Vector Int n) : Array Int :=
  entries.toArray ++ a.extract n a.size

/-- Filters the tasks given by the first `n` entries of three arrays: the verdict, and the arrays of
earliest starts and latest ends (`filter`). -/
def filterArrays (startMin duration endMax : Array Int) (n : Nat) :
    Except Fault (Verdict × Array Int × Array Int) := do
  let tasks : Tasks n :=
    ⟨← takeEntries startMin n, ← takeEntries duration n, ← takeEntries endMax n⟩
  let (verdict, filtered) ← tasks.filter
  return (verdict, putEntries startMin filtered.startMin, putEntries endMax filtered.endMax)

end Scheduling
