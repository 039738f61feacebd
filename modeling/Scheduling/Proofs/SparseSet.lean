import Mathlib.Data.List.Nodup
import Mathlib.Logic.Equiv.Basic
import Scheduling.Cumulative.Resource
import Scheduling.Disjunctive.Machine
import Scheduling.Proofs.Computation

/-!
# Walks over sparse sets

A propagator walks over the positions of its active set from the last to the first and removes the
elements that no longer matter. The walk is the same for all of them; it leaves the set as a filter
would, and it does not disturb the larger sets of earlier checkpoints, which share the elements.

Results:
* `SparseSet.exists_swap_of_removeAt`: what the removal of a member writes.
* `SparseSet.Valid.exchange`, `SparseSet.has_exchange_iff`: exchanging two elements keeps a set valid,
  and its members if both are members.
* `SparseSet.removeAt_spec`: what the removal does to the members.
* `SparseSet.sweep_spec`: what a walk leaves, for the current set and for all larger ones.
* `Resource.dropDone_eq_sweep`, `Machine.dropAbsent_eq_sweep`: the walks of the propagators.
-/

namespace Scheduling

namespace SparseSet

/-- The elements are the numbers below `n`, each once. -/
structure Valid (n : Nat) (q : SparseSet) : Prop where
  size : q.elements.size = n
  lt : ∀ j i, q.elements.get? j = some i → i < n
  injective : ∀ j j' i, q.elements.get? j = some i → q.elements.get? j' = some i → j = j'
  surjective : ∀ i, i < n → ∃ j, q.elements.get? j = some i

/-- The element is among the first `m`. -/
def Has (q : SparseSet) (m i : Nat) : Prop := ∃ j, j < m ∧ q.elements.get? j = some i

theorem Has.mono {q : SparseSet} {m m' i : Nat} (h : q.Has m i) (le : m ≤ m') : q.Has m' i := by
  obtain ⟨j, lt, at_j⟩ := h
  exact ⟨j, Nat.lt_of_lt_of_le lt le, at_j⟩

theorem Valid.has_all {n : Nat} {q : SparseSet} (h : q.Valid n) {i : Nat} (lt : i < n) :
    q.Has n i := by
  obtain ⟨j, at_j⟩ := h.surjective i lt
  exact ⟨j, by rw [← h.size]; exact Table.lt_size_of_get? at_j, at_j⟩

theorem Valid.lt_of_has {n m i : Nat} {q : SparseSet} (h : q.Valid n) (has : q.Has m i) :
    i < n := by
  obtain ⟨j, -, at_j⟩ := has
  exact h.lt j i at_j

theorem valid_full (n : Nat) (size : CellId) : (full n size).Valid n := by
  have row (j i : Nat) : (full n size).elements.get? j = some i ↔ j < n ∧ j = i := by
    simp [full, Table.ofList, Table.get?]
    grind
  refine ⟨by simp [full, Table.ofList, Table.size], fun j i at_j => ?_, fun j j' i at_j at_j' => ?_,
    fun i lt => ⟨i, (row i i).2 ⟨lt, rfl⟩⟩⟩
  · have := (row j i).1 at_j
    omega
  · have := (row j i).1 at_j
    have := (row j' i).1 at_j'
    omega

theorem length_eq_ok {q : SparseSet} {c : Cells} {m : Nat}
    (h : c.values.get? q.size.index = some (m : Int)) : q.length c = .ok m := by
  simp [length, Cells.read_eq_ok_iff.2 h, bind, Except.bind, pure, Except.pure]

/-- The members are the first elements. -/
theorem members_eq_ok {q : SparseSet} {c : Cells} {m : Nat}
    (h : c.values.get? q.size.index = some (m : Int)) :
    q.members c = .ok (q.elements.toList.take m) := by
  simp [members, length_eq_ok h, bind, Except.bind, pure, Except.pure]

theorem mem_take_iff {q : SparseSet} {m i : Nat} : i ∈ q.elements.toList.take m ↔ q.Has m i := by
  simp only [List.mem_take_iff_getElem, Has, Table.get?, Table.toList]
  constructor
  · rintro ⟨j, inside, rfl⟩
    simp only [Array.length_toList] at inside
    exact ⟨j, by omega, by simp [show j < q.elements.items.size by omega]⟩
  · rintro ⟨j, lt, at_j⟩
    obtain ⟨inside, rfl⟩ := Array.getElem?_eq_some_iff.1 at_j
    exact ⟨j, by simp only [Array.length_toList]; omega, by simp⟩

theorem Valid.nodup_take {n : Nat} {q : SparseSet} (h : q.Valid n) (m : Nat) :
    (q.elements.toList.take m).Nodup := by
  apply List.Nodup.sublist (List.take_sublist ..)
  rw [List.nodup_iff_getElem?_ne_getElem?]
  intro j j' lt inside same
  simp only [Table.toList, Array.getElem?_toList] at same
  simp only [Table.toList, Array.length_toList] at inside
  have at_j : q.elements.get? j = some q.elements.items[j] := by
    simp [Table.get?]
  have := h.injective j j' _ at_j (by rw [← at_j]; exact same.symm)
  omega

theorem Valid.perm_range {n : Nat} {q : SparseSet} (h : q.Valid n) :
    q.elements.toList.Perm (List.range n) := by
  have nodup := h.nodup_take q.elements.toList.length
  rw [List.take_length] at nodup
  refine (List.perm_ext_iff_of_nodup nodup List.nodup_range).2 fun i => ?_
  rw [List.mem_range, List.mem_iff_getElem?]
  simp only [Table.toList, Array.getElem?_toList]
  exact ⟨fun ⟨j, at_j⟩ => h.lt j i at_j, h.surjective i⟩

/-! ## Removal -/

/-- Removing the member at a position exchanges it with the last one, and there is one member
less. -/
theorem exists_swap_of_removeAt {m position element : Nat} {q q' : SparseSet} {c c' : Cells}
    (size : c.values.get? q.size.index = some (m : Int))
    (here : q.elements.get? position = some element)
    (ran : q.removeAt position c = .ok (q', c')) :
    position < m ∧ c.assign q.size ((m - 1 : Nat) : Int) = .ok c' ∧
      ∃ last, q.elements.get? (m - 1) = some last ∧
        q' = { q with
          elements := (q.elements.set position last).set (m - 1) element
          positions := (q.positions.set last position).set element (m - 1) } := by
  simp only [removeAt, length_eq_ok size, bind, Except.bind] at ran
  split at ran
  · simp [throw, throwThe, MonadExceptOf.throw] at ran
  rename_i within
  split at ran
  · cases ran
  rename_i swapped swap
  split at ran
  · cases ran
  rename_i cells assigned
  cases ran
  simp only [SparseSet.swap, Table.read_eq_ok_iff.2 here, bind, Except.bind, pure,
    Except.pure] at swap
  split at swap
  · cases swap
  rename_i last there
  cases swap
  exact ⟨by omega, assigned, last, Table.read_eq_ok_iff.1 there, rfl⟩

/-- Exchanging two rows permutes the table. -/
theorem get?_exchange {t : Table Nat} {j k first second : Nat} (at_j : t.get? j = some first)
    (at_k : t.get? k = some second) (l : Nat) :
    ((t.set j second).set k first).get? l = t.get? (Equiv.swap j k l) := by
  simp only [Table.get?_set, Table.size_set, Table.lt_size_of_get? at_j, Table.lt_size_of_get? at_k,
    if_true]
  split
  · rename_i last
    rw [← last, Equiv.swap_apply_right, at_j]
  · rename_i other
    split
    · rename_i first
      rw [← first, Equiv.swap_apply_left, at_k]
    · rename_i other'
      rw [Equiv.swap_apply_of_ne_of_ne (Ne.symm other') (Ne.symm other)]

theorem swap_lt {j k l m : Nat} (lt : j < m) (lt' : k < m) (below : l < m) :
    Equiv.swap j k l < m := by
  rw [Equiv.swap_apply_def]
  split
  · exact lt'
  · split
    · exact lt
    · exact below

section Exchange

variable {n j k : Nat} {q q' : SparseSet}
  (row : ∀ l, q'.elements.get? l = q.elements.get? (Equiv.swap j k l))
include row

/-- A valid set stays valid when two of its elements are exchanged. -/
theorem Valid.exchange (valid : q.Valid n) (size : q'.elements.size = q.elements.size) :
    q'.Valid n := by
  refine ⟨size.trans valid.size, fun l i at_l => ?_, fun l l' i at_l at_l' => ?_, fun i lt => ?_⟩
  · rw [row] at at_l
    exact valid.lt _ i at_l
  · rw [row] at at_l at_l'
    exact (Equiv.swap j k).injective (valid.injective _ _ i at_l at_l')
  · obtain ⟨l, at_l⟩ := valid.surjective i lt
    exact ⟨Equiv.swap j k l, by rw [row, Equiv.swap_apply_self, at_l]⟩

/-- It has the same members if both elements are members. -/
theorem has_exchange_iff {m : Nat} (lt : j < m) (lt' : k < m) (i : Nat) :
    q'.Has m i ↔ q.Has m i := by
  constructor
  · rintro ⟨l, below, at_l⟩
    exact ⟨_, swap_lt lt lt' below, by rw [← row, at_l]⟩
  · rintro ⟨l, below, at_l⟩
    exact ⟨_, swap_lt lt lt' below, by rw [row, Equiv.swap_apply_self, at_l]⟩

end Exchange

/-- Removing the member at a position: the set is still valid, its members are the others, and no
larger set is disturbed. -/
theorem removeAt_spec {n m position element : Nat} {q q' : SparseSet} {c c' : Cells}
    (valid : q.Valid n) (size : c.values.get? q.size.index = some (m : Int))
    (here : q.elements.get? position = some element)
    (ran : q.removeAt position c = .ok (q', c')) :
    position < m ∧ q'.Valid n ∧ q'.size = q.size ∧ c.Evolves [q.size] c' ∧
      c'.values.get? q.size.index = some ((m - 1 : Nat) : Int) ∧
      (∀ i, q'.Has (m - 1) i ↔ q.Has m i ∧ i ≠ element) ∧
      (∀ k, m ≤ k → ∀ i, q'.Has k i ↔ q.Has k i) ∧
      ∀ j, position ≤ j → j < m - 1 → ∃ j', position < j' ∧ j' < m ∧
        q'.elements.get? j = q.elements.get? j' := by
  obtain ⟨within, assigned, last, there, rfl⟩ := exists_swap_of_removeAt size here ran
  obtain ⟨-, values, -, -, -⟩ := Cells.assign_spec assigned
  have row := get?_exchange here there
  refine ⟨within, valid.exchange row (by simp only [Table.size_set]), rfl,
    Cells.evolves_of_assign assigned, ?_, fun i => ⟨?_, ?_⟩,
    fun k le => has_exchange_iff row (by omega) (by omega), fun j ge lt => ?_⟩
  · rw [values, Table.get?_set, if_pos rfl, if_pos (Table.lt_size_of_get? size)]
  · rintro ⟨j, lt, at_j⟩
    simp only [row] at at_j
    refine ⟨⟨_, swap_lt within (by omega) (by omega), at_j⟩, ?_⟩
    rintro rfl
    have back : j = m - 1 := by
      rw [← Equiv.swap_apply_self position (m - 1) j, valid.injective _ _ _ at_j here,
        Equiv.swap_apply_left]
    omega
  · rintro ⟨⟨j, lt, at_j⟩, differs⟩
    have other : j ≠ position := by
      rintro rfl
      rw [here] at at_j
      cases at_j
      exact differs rfl
    refine ⟨Equiv.swap position (m - 1) j, ?_, by simp only [row, Equiv.swap_apply_self, at_j]⟩
    rw [Equiv.swap_apply_def, if_neg other]
    split <;> omega
  · refine ⟨Equiv.swap position (m - 1) j, ?_, swap_lt within (by omega) (by omega), row j⟩
    rw [Equiv.swap_apply_def]
    split
    · omega
    · split <;> omega

/-- The removal of a member succeeds. -/
theorem exists_removeAt {n m position : Nat} {q : SparseSet} {c : Cells} (valid : q.Valid n)
    (size : c.values.get? q.size.index = some (m : Int)) (le : m ≤ n) (lt : position < m) :
    ∃ r, q.removeAt position c = .ok r := by
  obtain ⟨element, here⟩ := Table.exists_get? (show position < q.elements.size by
    rw [valid.size]; omega)
  obtain ⟨last, there⟩ := Table.exists_get? (show m - 1 < q.elements.size by
    rw [valid.size]; omega)
  have known : c.read q.size = .ok (m : Int) := Cells.read_eq_ok_iff.2 size
  have : ¬ m ≤ position := by omega
  simp only [removeAt, length_eq_ok size, bind, Except.bind, this, if_false, SparseSet.swap,
    Table.read_eq_ok_iff.2 here, Table.read_eq_ok_iff.2 there, pure, Except.pure, Cells.assign,
    known]
  split
  · rename_i cause failed
    split at failed <;> cases failed
  · exact ⟨_, rfl⟩

/-! ## Walks -/

/-- Goes over the positions below the given one, from the last to the first, and removes the
elements that are done. -/
def sweep (done : Nat → Except Fault Bool) : Nat → SparseSet → Cells →
    Except Fault (SparseSet × Cells)
  | 0, q, c => return (q, c)
  | position + 1, q, c => do
    let element ← q.get position
    if ← done element then
      let (q, c) ← q.removeAt position c
      sweep done position q c
    else sweep done position q c

/-- A walk removes exactly the elements that are done, and disturbs no larger set. -/
theorem sweep_spec {done : Nat → Except Fault Bool} {n m position : Nat} {q q' : SparseSet}
    {c c' : Cells} (valid : q.Valid n) (size : c.values.get? q.size.index = some (m : Int))
    (le : m ≤ n) (below : position ≤ m)
    (kept : ∀ j i, position ≤ j → j < m → q.elements.get? j = some i → done i = .ok false)
    (ran : sweep done position q c = .ok (q', c')) :
    q'.Valid n ∧ q'.size = q.size ∧ c.Evolves [q.size] c' ∧
      ∃ m', m' ≤ m ∧ c'.values.get? q.size.index = some (m' : Int) ∧
        (∀ i, q'.Has m' i ↔ q.Has m i ∧ done i = .ok false) ∧
        (∀ i, q.Has m i → done i = .ok false ∨ done i = .ok true) ∧
        ∀ k, m ≤ k → ∀ i, q'.Has k i ↔ q.Has k i := by
  induction position generalizing q c m with
  | zero =>
    cases ran
    refine ⟨valid, rfl, .refl _, m, Nat.le_refl _, size, fun i => ⟨fun has => ⟨has, ?_⟩, And.left⟩,
      fun i has => .inl ?_, fun _ _ _ => Iff.rfl⟩
    all_goals
      obtain ⟨j, lt, at_j⟩ := has
      exact kept j i (Nat.zero_le _) lt at_j
  | succ position ih =>
    obtain ⟨element, here, ran⟩ := bind_eq_ok_iff.1 ran
    obtain ⟨isDone, decided, ran⟩ := bind_eq_ok_iff.1 ran
    have here : q.elements.get? position = some element := Table.read_eq_ok_iff.1 here
    cases isDone with
    | false =>
      refine ih valid size le (by omega) (fun j i ge lt at_j => ?_) ran
      by_cases first : j = position
      · subst first
        rw [here] at at_j
        cases at_j
        exact decided
      · exact kept j i (by omega) lt at_j
    | true =>
      obtain ⟨⟨q₁, c₁⟩, removed, ran⟩ := bind_eq_ok_iff.1 ran
      obtain ⟨within, valid₁, same, evolves, size₁, fewer, larger, back⟩ :=
        removeAt_spec valid size here removed
      obtain ⟨valid', same', evolves', m', le', size', left, all, larger'⟩ :=
        ih valid₁ (by rw [same]; exact size₁) (by omega) (by omega) (fun j i ge lt at_j => by
          obtain ⟨j', after, lt', moved⟩ := back j ge lt
          rw [moved] at at_j
          exact kept j' i (by omega) lt' at_j) ran
      rw [same] at same' evolves' size'
      refine ⟨valid', same', evolves.trans evolves', m', by omega, size', fun i => ?_, fun i has => ?_,
        fun k ge i => (larger' k (by omega) i).trans (larger k ge i)⟩
      · rw [left, fewer]
        constructor
        · rintro ⟨⟨has, -⟩, false⟩
          exact ⟨has, false⟩
        · rintro ⟨has, false⟩
          refine ⟨⟨has, ?_⟩, false⟩
          rintro rfl
          rw [decided] at false
          cases false
      · by_cases first : i = element
        · exact .inr (first ▸ decided)
        · exact all i ((fewer i).2 ⟨has, first⟩)

/-- A walk succeeds if the test does. -/
theorem exists_sweep {done : Nat → Except Fault Bool} {n m position : Nat} {q : SparseSet}
    {c : Cells} (valid : q.Valid n) (size : c.values.get? q.size.index = some (m : Int))
    (le : m ≤ n) (below : position ≤ m) (decided : ∀ i, i < n → ∃ answer, done i = .ok answer) :
    ∃ r, sweep done position q c = .ok r := by
  induction position generalizing q c m with
  | zero => exact ⟨_, rfl⟩
  | succ position ih =>
    obtain ⟨element, here⟩ := Table.exists_get? (show position < q.elements.size by
      rw [valid.size]; omega)
    have get : q.get position = .ok element := Table.read_eq_ok_iff.2 here
    obtain ⟨answer, known⟩ := decided element (valid.lt position element here)
    simp only [sweep, get, known, bind, Except.bind]
    cases answer with
    | false => simpa using ih valid size le (by omega)
    | true =>
      obtain ⟨⟨q₁, c₁⟩, removed⟩ := exists_removeAt valid size le (show position < m by omega)
      obtain ⟨-, valid₁, same, -, size₁, -, -, -⟩ := removeAt_spec valid size here removed
      simp only [if_true, removed]
      exact ih valid₁ (m := m - 1) (by rw [same]; exact size₁) (by omega) (by omega)

end SparseSet

/-- The walk of a resource. -/
theorem Resource.dropDone_eq_sweep (span : Span) (position : Nat) (r : Resource) (s : Store) :
    (dropDone span position r).run s =
      (SparseSet.sweep (fun index => do isDone s.domains span (← r.activities.read index)) position
        r.active s.cells).map fun (active, cells) => ({ r with active }, { s with cells }) := by
  induction position generalizing r s with
  | zero => rfl
  | succ position ih =>
    simp only [dropDone, SparseSet.sweep, StateT.run_bind, StateT.run_get, run_liftM]
    cases r.active.get position with
    | error cause => rfl
    | ok element =>
      cases found : r.activities.read element with
      | error cause => simp [found, bind, Except.bind, Except.map, pure, Except.pure]
      | ok a =>
        cases decided : isDone s.domains span a with
        | error cause => simp [found, decided, bind, Except.bind, Except.map, pure, Except.pure]
        | ok done =>
          simp only [found, decided, bind, Except.bind, Except.map, pure, Except.pure]
          cases done with
          | false => exact ih r s
          | true =>
            cases removed : r.active.removeAt position s.cells with
            | error cause => rfl
            | ok result => exact ih { r with active := result.1 } { s with cells := result.2 }

/-- The walk of a machine. -/
theorem Machine.dropAbsent_eq_sweep (position : Nat) (m : Machine) (s : Store) :
    (dropAbsent position m).run s =
      (SparseSet.sweep (fun index => do
          return (← s.domains.interval (← m.intervals.read index)).isAbsent) position
        m.active s.cells).map fun (active, cells) => ({ m with active }, { s with cells }) := by
  induction position generalizing m s with
  | zero => rfl
  | succ position ih =>
    simp only [dropAbsent, SparseSet.sweep, StateT.run_bind, StateT.run_get, run_liftM]
    cases m.active.get position with
    | error cause => rfl
    | ok element =>
      cases found : m.intervals.read element with
      | error cause => simp [found, bind, Except.bind, Except.map, pure, Except.pure]
      | ok i =>
        cases row : s.domains.interval i with
        | error cause => simp [found, row, bind, Except.bind, Except.map, pure, Except.pure]
        | ok v =>
          simp only [found, row, bind, Except.bind, Except.map, pure, Except.pure]
          by_cases absent : v.isAbsent = true
          · simp only [absent, if_true]
            cases removed : m.active.removeAt position s.cells with
            | error cause => rfl
            | ok result => exact ih { m with active := result.1 } { s with cells := result.2 }
          · simp only [absent, if_false, Bool.false_eq_true]
            exact ih m s

end Scheduling
