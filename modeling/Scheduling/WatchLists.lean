import Scheduling.Event
import Scheduling.Table

/-!
# Watch lists

Which propagators wait for which events of which variables. The model of `WatchLists`.

* `WatchLists.mem_affected_subscribe`: a subscription adds the propagator for the given events of
  the given variable, and nothing else changes.
-/

namespace Scheduling

/-- The key of a propagator (`PropagatorId`). -/
structure PropagatorId where
  index : Nat
  deriving DecidableEq, Repr

/-- The text form of a propagator. -/
def PropagatorId.text (p : PropagatorId) : String := s!"PropagatorId({p.index})"

/-- The subscriptions to the events of one variable, in the order in which they were made
(`Watchers`). -/
abbrev Watchers := List (Event × PropagatorId)

/-- Adds a subscription that is not there yet (`watch`). -/
def Watchers.add (w : Watchers) (p : PropagatorId) (e : Event) : Watchers :=
  if w.contains (e, p) then w else w ++ [(e, p)]

/-- The propagators that wait for an event (`for_event`). -/
def Watchers.affected (w : Watchers) (e : Event) : List PropagatorId :=
  w.filterMap fun (event, p) => if event = e then some p else none

/-- For every variable, the subscriptions to its events (`WatchLists`). -/
structure WatchLists where
  integers : Table Watchers
  intervals : Table Watchers
  deriving DecidableEq, Repr

namespace WatchLists

/-- No subscriptions. -/
def empty : WatchLists := ⟨.empty, .empty⟩

/-- The subscriptions to the events of a variable. -/
def watchers (w : WatchLists) : Watched → Watchers
  | .integer x => (w.integers.get? x.index).getD []
  | .interval i => (w.intervals.get? i.index).getD []

/-- Replaces the row of a key in a table that grows as needed. -/
def replace (t : Table Watchers) (key : Nat) (row : Watchers) : Table Watchers :=
  (t.growTo key []).set key row

/-- Subscribes a propagator to some events of a variable (`watch_all` and `watch_interval`). -/
def subscribe (w : WatchLists) (p : PropagatorId) (v : Watched) (events : EventSet) : WatchLists :=
  let row := events.foldl (fun row e => row.add p e) (w.watchers v)
  match v with
  | .integer x => { w with integers := replace w.integers x.index row }
  | .interval i => { w with intervals := replace w.intervals i.index row }

/-- The propagators that wait for an event of a variable (`get_affected_propagators`). -/
def affected (w : WatchLists) (e : Event) (v : Watched) : List PropagatorId :=
  (w.watchers v).affected e

end WatchLists

theorem Watchers.mem_affected {w : Watchers} {e : Event} {p : PropagatorId} :
    p ∈ w.affected e ↔ (e, p) ∈ w := by
  simp only [affected, List.mem_filterMap, Prod.exists]
  constructor
  · rintro ⟨event, q, mem, eq⟩
    split at eq <;> simp_all
  · intro mem
    exact ⟨e, p, mem, by simp⟩

theorem Watchers.mem_add {w : Watchers} {p : PropagatorId} {e : Event} {s : Event × PropagatorId} :
    s ∈ w.add p e ↔ s ∈ w ∨ s = (e, p) := by
  unfold add
  split
  · simp_all [or_iff_left_of_imp]
  · simp

theorem Watchers.mem_foldl_add {events : EventSet} {w : Watchers} {p : PropagatorId}
    {s : Event × PropagatorId} :
    s ∈ events.foldl (fun row e => Watchers.add row p e) w ↔ s ∈ w ∨ s.1 ∈ events ∧ s.2 = p := by
  induction events generalizing w with
  | nil => simp
  | cons e events ih =>
    obtain ⟨event, q⟩ := s
    simp only [List.foldl_cons, ih, mem_add, Prod.mk.injEq, List.mem_cons]
    grind

theorem WatchLists.get?_replace (t : Table Watchers) (key : Nat) (row : Watchers) (other : Nat) :
    ((replace t key row).get? other).getD [] =
      if key = other then row else (t.get? other).getD [] := by
  have inside : key < (t.growTo key []).size := by
    simp [Table.growTo, Table.size]; omega
  simp only [replace, Table.get?_set, inside, if_true]
  split
  · simp
  · rw [Table.get?_growTo]
    split
    · rfl
    · have missing : t.get? other = none := Table.get?_eq_none_iff.2 (by omega)
      split <;> simp [missing]

theorem WatchLists.watchers_subscribe (w : WatchLists) (p : PropagatorId) (v : Watched)
    (events : EventSet) (other : Watched) :
    (w.subscribe p v events).watchers other =
      if v = other then events.foldl (fun row e => row.add p e) (w.watchers v)
      else w.watchers other := by
  cases v <;> cases other <;>
    simp only [subscribe, watchers, get?_replace, Watched.integer.injEq, Watched.interval.injEq,
      reduceCtorEq, if_false]
  · rename_i x y; cases x; cases y; simp
  · rename_i x y; cases x; cases y; simp

theorem WatchLists.mem_affected_subscribe {w : WatchLists} {p q : PropagatorId} {v other : Watched}
    {events : EventSet} {e : Event} :
    q ∈ (w.subscribe p v events).affected e other ↔
      q ∈ w.affected e other ∨ v = other ∧ e ∈ events ∧ q = p := by
  simp only [affected, watchers_subscribe, Watchers.mem_affected]
  split
  · subst_vars; simp [Watchers.mem_foldl_add]
  · simp_all

end Scheduling
