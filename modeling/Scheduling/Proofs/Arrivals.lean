import Scheduling.Proofs.Agenda
import Scheduling.Proofs.Computation

/-!
# The agenda serves by priority and arrival

Whatever is asked of an agenda, those who wait are those who came and were neither taken nor dropped
since. The one who is taken next is the first to have come among those of the lowest level. Coming
again while waiting, with whatever priority, changes nothing.

Results:
* `Arrivals.after`: who waits after a request, given the answer to it.
* `Agenda.Lists`: an agenda holds a list of arrivals; kept by `Agenda.Lists.perform`.
* `Agenda.Lists.exists_first`: who is taken next.
* `Agenda.serves_arrivals`: every sequence of requests is answered in this way.
-/

namespace Scheduling

namespace Agenda

/-- What can be asked of an agenda. -/
inductive Request
  | enqueue (p : PropagatorId) (priority : Priority)
  | pop
  | clear
  deriving DecidableEq, Repr

/-- The propagator that is taken, if any, and the agenda afterwards. -/
def perform (a : Agenda) : Request → Except Fault (Option PropagatorId × Agenda)
  | .enqueue p priority => do return (none, ← a.enqueue p priority)
  | .pop => return a.pop
  | .clear => return (none, a.clear)

/-- Performs requests one after the other; each is listed with the answer to it. -/
def trace (a : Agenda) : List Request →
    Except Fault (List (Request × Option PropagatorId) × Agenda)
  | [] => return ([], a)
  | r :: rest => do
    let (answer, a) ← a.perform r
    let (log, a) ← a.trace rest
    return ((r, answer) :: log, a)

end Agenda

/-- Those who wait, with their priorities, in the order in which they came. -/
abbrev Arrivals := List (PropagatorId × Priority)

namespace Arrivals

/-- The propagators that wait. -/
def ids (l : Arrivals) : List PropagatorId := l.map Prod.fst

/-- Those who wait on a level. -/
def onLevel (l : Arrivals) (level : Nat) : List PropagatorId :=
  ids (l.filter fun x => x.2.level = level)

/-- Who waits after a request, given who was taken. -/
def after (l : Arrivals) : Agenda.Request × Option PropagatorId → Arrivals
  | (.enqueue p priority, _) => if p ∈ l.ids then l else l ++ [(p, priority)]
  | (.pop, some p) => l.filter fun x => x.1 ≠ p
  | (.pop, none) => l
  | (.clear, _) => []

/-- The propagator is the first to have come among those of the lowest level. -/
def First (l : Arrivals) (p : PropagatorId) : Prop :=
  ∃ before priority later, l = before ++ (p, priority) :: later ∧
    (∀ x ∈ before, priority.level < x.2.level) ∧ ∀ x ∈ later, priority.level ≤ x.2.level

theorem mem_ids_iff {l : Arrivals} {p : PropagatorId} :
    p ∈ l.ids ↔ ∃ level, p ∈ l.onLevel level := by
  simp only [ids, onLevel, List.mem_map, List.mem_filter, decide_eq_true_eq]
  constructor
  · rintro ⟨x, mem, rfl⟩
    exact ⟨x.2.level, x, ⟨mem, rfl⟩, rfl⟩
  · rintro ⟨level, x, ⟨mem, -⟩, same⟩
    exact ⟨x, mem, same⟩

theorem mem_onLevel_of_mem {l : Arrivals} {x : PropagatorId × Priority} (mem : x ∈ l) :
    x.1 ∈ l.onLevel x.2.level :=
  List.mem_map.2 ⟨x, List.mem_filter.2 ⟨mem, by simp⟩, rfl⟩

/-- Whoever comes is the last of his level. -/
theorem onLevel_append (l : Arrivals) (p : PropagatorId) (priority : Priority) (level : Nat) :
    onLevel (l ++ [(p, priority)]) level =
      if priority.level = level then l.onLevel level ++ [p] else l.onLevel level := by
  simp only [onLevel, ids, List.filter_append, List.map_append]
  split <;> rename_i here <;> simp [here]

/-- Whoever leaves is missing on his level. -/
theorem onLevel_filter_ne (l : Arrivals) (p : PropagatorId) (level : Nat) :
    onLevel (l.filter fun x => x.1 ≠ p) level = (l.onLevel level).filter fun q => q ≠ p := by
  simp only [onLevel, ids, List.filter_filter, List.filter_map]
  congr 1
  refine List.filter_congr fun x _ => ?_
  simp [Bool.and_comm]

end Arrivals

namespace Agenda

open Arrivals

/-- The queues of the agenda hold the arrivals in order. -/
structure Lists (a : Agenda) (l : Arrivals) : Prop where
  valid : a.Valid
  levels : ∀ priority : Priority, priority.level < a.buckets.size
  bucket : ∀ level, a.bucket level = l.onLevel level
  nodup : l.ids.Nodup

namespace Lists

variable {a a' : Agenda} {l : Arrivals} {p : PropagatorId}

theorem empty : Agenda.empty.Lists [] where
  valid := valid_empty
  levels priority := by cases priority <;> decide
  bucket level := by
    have none := (valid_empty.mem_occupied level).not.1 (by simp [Agenda.empty, ofLevels])
    simpa [onLevel, ids] using none
  nodup := List.nodup_nil

/-- The flags are set for those who wait. -/
theorem isWaiting_iff (h : a.Lists l) : a.isWaiting p = true ↔ p ∈ l.ids := by
  rw [(valid_iff.1 h.valid).2.2.1, mem_ids_iff]
  simp only [h.bucket]

/-- Coming again changes nothing. -/
theorem enqueue_of_mem (h : a.Lists l) (waits : p ∈ l.ids) (priority : Priority) :
    a.enqueue p priority = .ok a := by
  simp only [Agenda.enqueue, h.isWaiting_iff.2 waits, if_true]
  rfl

theorem enqueue (h : a.Lists l) {priority : Priority} (queued : a.enqueue p priority = .ok a') :
    a'.Lists (l.after (.enqueue p priority, none)) := by
  have levels (other : Priority) : other.level < a'.buckets.size := by
    rw [size_buckets_of_enqueue queued]
    exact h.levels other
  have valid := valid_enqueue h.valid queued
  simp only [after]
  rcases enqueue_spec queued with ⟨waits, rfl⟩ | ⟨idle, buckets, -, -⟩
  · rw [if_pos (h.isWaiting_iff.1 waits)]
    exact h
  · have new : p ∉ l.ids := fun mem => by
      rw [h.isWaiting_iff.2 mem] at idle
      cases idle
    rw [if_neg new]
    refine ⟨valid, levels, fun level => ?_, ?_⟩
    · rw [buckets, onLevel_append, h.bucket]
    · rw [ids, List.map_append, List.nodup_append]
      refine ⟨h.nodup, List.nodup_singleton _, fun q mem r last same => new ?_⟩
      rw [List.map_singleton, List.mem_singleton] at last
      rwa [same, last] at mem

theorem clear (h : a.Lists l) : a.clear.Lists [] where
  valid := valid_clear a
  levels priority := by simpa [Agenda.clear, Table.map, Table.size] using h.levels priority
  bucket level := by
    have none := ((valid_clear a).mem_occupied level).not.1 (by simp [Agenda.clear])
    simpa [onLevel, ids] using none
  nodup := List.nodup_nil

/-- The lowest occupied level is that of the first arrival that is not above any other. -/
theorem first_of_occupied (h : a.Lists l) {level : Nat} {higher : List Nat}
    {queue : List PropagatorId} (occupied : a.occupied = level :: higher)
    (queued : a.bucket level = p :: queue) : l.First p := by
  -- The level of everybody who waits is occupied, and the list of these levels ascends.
  have least (x : PropagatorId × Priority) (mem : x ∈ l) : level ≤ x.2.level := by
    have filled : x.2.level ∈ a.occupied := (h.valid.mem_occupied _).2 (by
      rw [h.bucket]
      exact List.ne_nil_of_mem (mem_onLevel_of_mem mem))
    rw [occupied] at filled
    have ascending := h.valid.ascending
    rw [occupied] at ascending
    rcases List.mem_cons.1 filled with same | above
    · exact Nat.le_of_eq same.symm
    · exact Nat.le_of_lt ((List.pairwise_cons.1 ascending).1 _ above)
  rw [h.bucket, onLevel, ids, List.map_eq_cons_iff] at queued
  obtain ⟨⟨q, priority⟩, rest, here, rfl, -⟩ := queued
  obtain ⟨before, later, rfl, others, here, -⟩ := List.filter_eq_cons_iff.1 here
  simp only [decide_eq_true_eq] at others here
  subst here
  refine ⟨before, priority, later, rfl, fun x mem => ?_, fun x mem => ?_⟩
  · have := least x (List.mem_append_left _ mem)
    have := others x mem
    omega
  · exact least x (List.mem_append_right _ (List.mem_cons_of_mem _ mem))

/-- Nobody is taken if nobody waits; otherwise the first arrival of the lowest level is. -/
theorem exists_first (h : a.Lists l) :
    (l = [] → a.pop.1 = none) ∧ (l ≠ [] → ∃ p, a.pop.1 = some p ∧ l.First p) := by
  rcases pop_spec h.valid (show a.pop = (a.pop.1, a.pop.2) from rfl) with
    ⟨taken, empty, -⟩ | ⟨p, level, queue, higher, taken, occupied, queued, -⟩
  · refine ⟨fun _ => taken, fun some => absurd ?_ some⟩
    refine List.eq_nil_iff_forall_not_mem.2 fun x mem => ?_
    have filled := mem_onLevel_of_mem mem
    rw [← h.bucket] at filled
    have occupied := (h.valid.mem_occupied _).2 (List.ne_nil_of_mem filled)
    simp [empty] at occupied
  · have first := h.first_of_occupied occupied queued
    refine ⟨fun none => ?_, fun _ => ⟨p, taken, first⟩⟩
    obtain ⟨before, priority, later, split, -⟩ := first
    simp [none] at split

theorem pop (h : a.Lists l) : a.pop.2.Lists (l.after (.pop, a.pop.1)) := by
  have levels (priority : Priority) : priority.level < a.pop.2.buckets.size := by
    rw [size_buckets_of_pop (show a.pop = (a.pop.1, a.pop.2) from rfl)]
    exact h.levels priority
  have valid := valid_pop h.valid (show a.pop = (a.pop.1, a.pop.2) from rfl)
  rcases pop_spec h.valid (show a.pop = (a.pop.1, a.pop.2) from rfl) with
    ⟨taken, -, same⟩ | ⟨p, level, queue, higher, taken, -, queued, buckets, -⟩
  · rw [taken, same]
    exact h
  · rw [taken]
    refine ⟨valid, levels, fun other => ?_, h.nodup.sublist ?_⟩
    · obtain ⟨-, -, -, each, disjoint⟩ := valid_iff.1 h.valid
      simp only [after]
      rw [onLevel_filter_ne, ← h.bucket, buckets]
      have single := each level
      rw [queued] at single
      obtain ⟨once, -⟩ := List.nodup_cons.1 single
      split
      · rename_i here
        rw [← here, queued, List.filter_cons_of_neg (by simp), List.filter_eq_self.2]
        intro q mem
        have absent : q ≠ p := fun same => once (same ▸ mem)
        simpa using absent
      · rename_i differs
        refine (List.filter_eq_self.2 fun q mem => ?_).symm
        have absent : q ≠ p := fun same =>
          differs (disjoint level other p (by simp [queued]) (same ▸ mem))
        simpa using absent
    · exact List.filter_sublist.map _

/-- Every request is answered, and the agenda goes on to hold those who wait. -/
theorem perform (h : a.Lists l) (r : Request) :
    ∃ answer a', a.perform r = .ok (answer, a') ∧ a'.Lists (l.after (r, answer)) := by
  cases r with
  | enqueue p priority =>
    obtain ⟨a', queued⟩ : ∃ a', a.enqueue p priority = .ok a' := by
      by_cases waits : p ∈ l.ids
      · exact ⟨a, h.enqueue_of_mem waits priority⟩
      · obtain ⟨queue, row⟩ := Table.exists_get? (h.levels priority)
        have idle : a.isWaiting p = false := by simpa using h.isWaiting_iff.not.2 waits
        simp only [Agenda.enqueue, idle, Table.read_eq_ok_iff.2 row, Bool.false_eq_true, if_false]
        exact ⟨_, rfl⟩
    exact ⟨none, a', bind_eq_ok_iff.2 ⟨a', queued, rfl⟩, h.enqueue queued⟩
  | pop => exact ⟨a.pop.1, a.pop.2, rfl, h.pop⟩
  | clear => exact ⟨none, a.clear, rfl, h.clear⟩

/-- So is every sequence of requests. -/
theorem trace (h : a.Lists l) (requests : List Request) :
    ∃ log a', a.trace requests = .ok (log, a') ∧ log.map Prod.fst = requests ∧
      a'.Lists (log.foldl after l) := by
  induction requests generalizing a l with
  | nil => exact ⟨[], a, rfl, rfl, h⟩
  | cons r rest ih =>
    obtain ⟨answer, a₁, performed, lists⟩ := h.perform r
    obtain ⟨log, a', rest, listed, lists'⟩ := ih lists
    refine ⟨(r, answer) :: log, a', ?_, by rw [List.map_cons, listed], lists'⟩
    exact bind_eq_ok_iff.2 ⟨_, performed, bind_eq_ok_iff.2 ⟨_, rest, rfl⟩⟩

end Lists

/-- Every sequence of requests to an empty agenda is answered. Let `l` be those who came and were
neither taken nor dropped since, in the order in which they came. The flags are set exactly for
them; if one of them comes again, with whatever priority, nothing changes; the queue of each level
holds those who came with its priority, and the occupied levels are those with a queue, each once.
Nobody is taken next if nobody waits, and otherwise it is the first to have come among those of the
lowest level. -/
theorem serves_arrivals (requests : List Request) :
    ∃ log a, Agenda.empty.trace requests = .ok (log, a) ∧ log.map Prod.fst = requests ∧
      let l : Arrivals := log.foldl after []
      l.ids.Nodup ∧ (∀ p, a.isWaiting p = true ↔ p ∈ l.ids) ∧
      (∀ p ∈ l.ids, ∀ priority, a.enqueue p priority = .ok a) ∧
      (∀ level, a.bucket level = l.onLevel level) ∧
      a.occupied.Nodup ∧ (∀ level, level ∈ a.occupied ↔ a.bucket level ≠ []) ∧
      (l = [] → a.pop.1 = none) ∧ (l ≠ [] → ∃ p, a.pop.1 = some p ∧ l.First p) := by
  obtain ⟨log, a, ran, listed, lists⟩ := Lists.empty.trace requests
  refine ⟨log, a, ran, listed, lists.nodup, fun p => lists.isWaiting_iff,
    fun p waits priority => lists.enqueue_of_mem waits priority, lists.bucket,
    lists.valid.ascending.imp Nat.ne_of_lt, lists.valid.mem_occupied, lists.exists_first⟩

/-- Whoever comes again waits where he did before. -/
example :
    (Agenda.empty.trace [.enqueue ⟨0⟩ .low, .enqueue ⟨1⟩ .medium, .enqueue ⟨2⟩ .medium,
      .enqueue ⟨0⟩ .high, .pop, .pop, .pop, .pop]).map (fun run => run.1.map Prod.snd) =
    .ok [none, none, none, none, some ⟨1⟩, some ⟨2⟩, some ⟨0⟩, none] := by
  decide

end Agenda

end Scheduling
