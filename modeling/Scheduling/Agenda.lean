import Scheduling.Table
import Scheduling.WatchLists

/-!
# The agenda

The propagators that wait to be run, first by the level of their priority and then in the order in
which they came. A propagator waits at most once. The model of `PropagatorQueue`.

* `Agenda.Valid`: what the flags and the index of occupied levels say about the buckets.
* `Agenda.toList`: the waiting propagators in the order in which they will be run.
-/

namespace Scheduling

/-- How urgent a propagator is; cheap propagators run first (`Priority`). -/
inductive Priority
  | high
  | medium
  | low
  | veryLow
  deriving DecidableEq, Repr

/-- The level of a priority; lower levels run first. -/
def Priority.level : Priority → Nat
  | high => 0
  | medium => 1
  | low => 2
  | veryLow => 3

/-- The priority of a level; every level from the third on is the default one. -/
def Priority.ofLevel : Nat → Priority
  | 0 => high
  | 1 => medium
  | 2 => low
  | _ => veryLow

/-- Waiting propagators: a queue per level, a flag per propagator, and the occupied levels, lowest
first (`PropagatorQueue`). -/
structure Agenda where
  buckets : Table (List PropagatorId)
  waiting : Table Bool
  occupied : List Nat
  deriving DecidableEq, Repr

namespace Agenda

/-- Nobody waits on any of the given number of levels. -/
def ofLevels (levels : Nat) : Agenda := ⟨.ofList (List.replicate levels []), .empty, []⟩

/-- Nobody waits on any of the given number of levels, if memory can hold their queues (`new`). -/
def create (levels : Nat) : Except Fault Agenda := do
  Memory.reserve levels 32
  return ofLevels levels

/-- Nobody waits; there is a level for every priority. -/
def empty : Agenda := ofLevels 4

/-- The propagator waits (`is_propagator_enqueued`). -/
def isWaiting (a : Agenda) (p : PropagatorId) : Bool := (a.waiting.get? p.index).getD false

/-- The queue of a level. -/
def bucket (a : Agenda) (level : Nat) : List PropagatorId := (a.buckets.get? level).getD []

/-- The waiting propagators in the order in which they will be run. -/
def toList (a : Agenda) : List PropagatorId := a.occupied.flatMap a.bucket

/-- Inserts a level into an ascending list. -/
def insertLevel (level : Nat) : List Nat → List Nat
  | [] => [level]
  | first :: rest =>
    if level ≤ first then level :: first :: rest else first :: insertLevel level rest

/-- Puts a propagator at the end of its level, unless it waits already (`enqueue_propagator`). -/
def enqueue (a : Agenda) (p : PropagatorId) (priority : Priority) : Except Fault Agenda := do
  if a.isWaiting p then return a
  let queue ← a.buckets.read priority.level
  return {
    buckets := a.buckets.set priority.level (queue ++ [p])
    waiting := (a.waiting.growTo p.index false).set p.index true
    occupied := if queue.isEmpty then insertLevel priority.level a.occupied else a.occupied }

/-- Takes the first propagator of the lowest occupied level (`pop`). -/
def pop (a : Agenda) : Option PropagatorId × Agenda :=
  match a.occupied with
  | [] => (none, a)
  | level :: higher =>
    match a.bucket level with
    | [] => (none, { a with occupied := higher })
    | p :: queue =>
      (some p, {
        buckets := a.buckets.set level queue
        waiting := a.waiting.set p.index false
        occupied := if queue.isEmpty then higher else a.occupied })

/-- Nobody waits any more (`clear`). -/
def clear (a : Agenda) : Agenda where
  buckets := a.buckets.map fun _ => []
  waiting := a.waiting.map fun _ => false
  occupied := []

/-- The occupied levels are exactly those whose queue is not empty, each once and in ascending
order, the flags are set exactly for the queued propagators, and nobody is queued twice. -/
structure Valid (a : Agenda) : Prop where
  ascending : a.occupied.Pairwise (· < ·)
  mem_occupied : ∀ level, level ∈ a.occupied ↔ a.bucket level ≠ []
  isWaiting_iff : ∀ p, a.isWaiting p = true ↔ p ∈ a.toList
  nodup : a.toList.Nodup

theorem mem_insertLevel {level other : Nat} {levels : List Nat} :
    other ∈ insertLevel level levels ↔ other = level ∨ other ∈ levels := by
  induction levels with
  | nil => simp [insertLevel]
  | cons first rest ih =>
    unfold insertLevel
    split
    · simp
    · simp only [List.mem_cons, ih]; grind

theorem valid_empty : empty.Valid where
  ascending := by simp [empty, ofLevels]
  mem_occupied level := by
    simp only [empty, ofLevels, bucket, Table.ofList, Table.get?]
    rcases level with _ | _ | _ | _ | level <;> simp
  isWaiting_iff p := by simp [empty, ofLevels, isWaiting, toList]
  nodup := by simp [empty, ofLevels, toList]

end Agenda

end Scheduling
