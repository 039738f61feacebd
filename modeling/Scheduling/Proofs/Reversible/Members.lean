import Scheduling.Proofs.SparseSet

/-!
# Members of a reversible set

A removal exchanges two elements, and the return to a checkpoint puts nothing back but the number of
members. The members of the time come back all the same: a removal exchanges two members, and of
these there are at most as many as at any earlier checkpoint, so that no element is moved across the
end of the members of that time.

Results:
* `SparseSet.Mirrored`: elements and positions are inverse to each other; `Mirrored.removeAt`.
* `SparseSet.walk`: a walk that lists what it comes to; it comes to every member once.
* `SparseSet.Diary`: a set with the members that it had when its checkpoints were opened.
* `SparseSet.Diary.Tracks`: what a diary needs to know of the past; kept by `Tracks.perform`.
* `SparseSet.Diary.represents_of_requests`: every sequence of requests keeps the representation.
-/

namespace Scheduling

/-- The cells can return to every checkpoint below the current one. -/
theorem Cells.exists_undoTo {c : Cells} {k : Nat} (below : k < c.depth) :
    ∃ c', c.undoTo k = .ok c' := by
  have below : k < c.trail.depth := below
  simp only [undoTo, Trail.undoTo, below, if_true, bind, Except.bind, pure, Except.pure]
  exact ⟨_, rfl⟩

namespace SparseSet

/-! ## Elements and positions -/

/-- The elements are the numbers below `n`, and `positions` says where each of them is. -/
structure Mirrored (n : Nat) (q : SparseSet) : Prop where
  elements : q.elements.size = n
  positions : q.positions.size = n
  inverse : ∀ p i, q.elements.get? p = some i ↔ q.positions.get? i = some p

namespace Mirrored

variable {n : Nat} {q : SparseSet} (h : q.Mirrored n)
include h

theorem valid : q.Valid n where
  size := h.elements
  lt p i here := by
    rw [← h.positions]
    exact Table.lt_size_of_get? ((h.inverse p i).1 here)
  injective p p' i here here' := by
    have same := ((h.inverse p i).1 here).symm.trans ((h.inverse p' i).1 here')
    exact Option.some.inj same
  surjective i lt := by
    obtain ⟨p, there⟩ := Table.exists_get? (show i < q.positions.size by rw [h.positions]; exact lt)
    exact ⟨p, (h.inverse p i).2 there⟩

/-- The positions are a set of which the elements are the positions. -/
theorem flip : Mirrored n ⟨q.positions, q.elements, q.size⟩ :=
  ⟨h.positions, h.elements, fun i p => (h.inverse p i).symm⟩

/-- The positions are those of all elements, each once. -/
theorem perm_positions : q.positions.toList.Perm (List.range n) := h.flip.valid.perm_range

/-- A number is a member if its position is among the first ones. -/
theorem contains_eq {c : Cells} {m : Nat} (size : c.values.get? q.size.index = some (m : Int))
    (i : Nat) : q.contains c i = .ok (decide (i ∈ q.elements.toList.take m)) := by
  have mem : i ∈ q.elements.toList.take m ↔ ∃ p, p < m ∧ q.positions.get? i = some p := by
    simp only [mem_take_iff, Has, h.inverse]
  cases there : q.positions.get? i with
  | none => simp [contains, there, mem, pure, Except.pure]
  | some p => simp [contains, there, mem, length_eq_ok size, bind, Except.bind, pure, Except.pure]

/-- A removal exchanges two elements and their positions. -/
theorem removeAt {c c' : Cells} {m position element : Nat} {q' : SparseSet}
    (size : c.values.get? q.size.index = some (m : Int))
    (here : q.elements.get? position = some element)
    (ran : q.removeAt position c = .ok (q', c')) : q'.Mirrored n := by
  obtain ⟨-, -, last, there, rfl⟩ := exists_swap_of_removeAt size here ran
  have within := Table.lt_size_of_get? here
  have inside := Table.lt_size_of_get? there
  have known := Table.lt_size_of_get? ((h.inverse _ _).1 here)
  have known' := Table.lt_size_of_get? ((h.inverse _ _).1 there)
  refine ⟨by simp [h.elements], by simp [h.positions], fun p i => ?_⟩
  have row := h.inverse p i
  have first := h.inverse position i
  have second := h.inverse (m - 1) i
  simp only [Table.get?_set, Table.size_set, within, inside, known, known', if_true]
  grind

end Mirrored

/-- Only members are removed. -/
theorem lt_of_removeAt {q q' : SparseSet} {c c' : Cells} {m position : Nat}
    (size : c.values.get? q.size.index = some (m : Int))
    (ran : q.removeAt position c = .ok (q', c')) : position < m := by
  refine Nat.lt_of_not_le fun beyond => ?_
  simp [removeAt, length_eq_ok size, beyond, bind, Except.bind, throw, throwThe,
    MonadExceptOf.throw] at ran

theorem mirrored_full (n : Nat) (size : CellId) : (full n size).Mirrored n := by
  refine ⟨by simp [full, Table.ofList, Table.size], by simp [full, Table.ofList, Table.size], ?_⟩
  intro p i
  simp only [full, Table.ofList, Table.get?, List.toArray_range]
  grind

/-! ## First elements -/

theorem getElem?_toList (t : Table Nat) (p : Nat) : t.toList[p]? = t.get? p := by
  simp [Table.toList, Table.get?]

section First

variable {n : Nat} {q q' : SparseSet} {c c' : Cells} {m position element : Nat}

/-- Sets with the same first elements list them alike, up to the order. -/
theorem perm_take {m' : Nat} (valid : q.Valid n) (valid' : q'.Valid n)
    (same : ∀ i, q'.Has m' i ↔ q.Has m i) :
    (q'.elements.toList.take m').Perm (q.elements.toList.take m) := by
  refine (List.perm_ext_iff_of_nodup (valid'.nodup_take m') (valid.nodup_take m)).2 fun i => ?_
  rw [mem_take_iff, mem_take_iff, same]

variable (valid : q.Valid n) (size : c.values.get? q.size.index = some (m : Int))
  (here : q.elements.get? position = some element)
  (ran : q.removeAt position c = .ok (q', c'))
include size here ran

/-- The elements before the position stay where they are. -/
theorem take_of_removeAt :
    q'.elements.toList.take position = q.elements.toList.take position := by
  obtain ⟨within, -, last, -, rfl⟩ := exists_swap_of_removeAt size here ran
  refine List.ext_getElem? fun p => ?_
  simp only [List.getElem?_take, getElem?_toList, Table.get?_set]
  grind

include valid

/-- The element at the position is the only member that is removed. -/
theorem perm_erase_of_removeAt : (q'.elements.toList.take (m - 1)).Perm
    ((q.elements.toList.take m).erase element) := by
  obtain ⟨-, valid', -, -, -, fewer, -⟩ := removeAt_spec valid size here ran
  have nodup := valid.nodup_take m
  refine (List.perm_ext_iff_of_nodup (valid'.nodup_take _) (nodup.erase element)).2 fun i => ?_
  rw [nodup.mem_erase_iff, mem_take_iff, mem_take_iff, fewer, and_comm]

/-- At least as many first elements as there are members stay the same, up to the order. -/
theorem perm_take_of_removeAt {k : Nat} (le : m ≤ k) :
    (q'.elements.toList.take k).Perm (q.elements.toList.take k) := by
  obtain ⟨-, valid', -, -, -, -, larger, -⟩ := removeAt_spec valid size here ran
  exact perm_take valid valid' (larger k le)

end First

/-! ## Walks -/

/-- Goes over the positions below the given one, from the last to the first, and removes the
elements that are done. Lists the elements in the order in which it comes to them. -/
def walk (done : Nat → Except Fault Bool) : Nat → SparseSet → Cells →
    Except Fault (List Nat × SparseSet × Cells)
  | 0, q, c => return ([], q, c)
  | position + 1, q, c => do
    let element ← q.get position
    let isDone ← done element
    let (q, c) ← (if isDone then q.removeAt position c else pure (q, c))
    let (visited, q, c) ← walk done position q c
    return (element :: visited, q, c)

/-- The walks of the propagators are of this kind. -/
theorem sweep_eq_walk (done : Nat → Except Fault Bool) (position : Nat) (q : SparseSet)
    (c : Cells) : sweep done position q c = (walk done position q c).map Prod.snd := by
  induction position generalizing q c with
  | zero => rfl
  | succ position ih =>
    simp only [sweep, walk, bind, Except.bind, ih]
    cases q.get position with
    | error cause => rfl
    | ok element =>
      cases decided : done element with
      | error cause => simp [decided, Except.map]
      | ok answer =>
        cases answer with
        | false =>
          simp only [decided, Bool.false_eq_true, if_false, pure, Except.pure]
          cases walk done position q c <;> rfl
        | true =>
          simp only [decided, if_true]
          cases q.removeAt position c with
          | error cause => rfl
          | ok removed =>
            cases rest : walk done position removed.1 removed.2 <;>
              simp [rest, Except.map, pure, Except.pure]

/-- A walk comes to the elements below its start from the last to the first: a removal moves only
what it has passed already. -/
theorem visited_of_walk {done : Nat → Except Fault Bool} {n m position : Nat}
    {q q' : SparseSet} {c c' : Cells} {visited : List Nat} (valid : q.Valid n)
    (size : c.values.get? q.size.index = some (m : Int)) (le : position ≤ m)
    (ran : walk done position q c = .ok (visited, q', c')) :
    visited = (q.elements.toList.take position).reverse := by
  induction position generalizing q c m visited with
  | zero => cases ran; simp
  | succ position ih =>
    obtain ⟨element, get, ran⟩ := bind_eq_ok_iff.1 ran
    obtain ⟨answer, decided, ran⟩ := bind_eq_ok_iff.1 ran
    have here : q.elements.get? position = some element := Table.read_eq_ok_iff.1 get
    have split : (q.elements.toList.take (position + 1)).reverse =
        element :: (q.elements.toList.take position).reverse := by
      rw [List.take_add_one, getElem?_toList, here]
      simp
    obtain ⟨⟨q₁, c₁⟩, removed, ran⟩ := bind_eq_ok_iff.1 ran
    obtain ⟨⟨rest, after⟩, walked, last⟩ := bind_eq_ok_iff.1 ran
    cases last
    cases answer with
    | false =>
      cases removed
      rw [split, ih valid size (by omega) walked]
    | true =>
      obtain ⟨-, valid₁, same, -, size₁, -⟩ := removeAt_spec valid size here removed
      rw [split, ← take_of_removeAt size here removed,
        ih valid₁ (m := m - 1) (by rw [same]; exact size₁) (by omega) walked]

/-- A walk over all members comes to each of them once, whichever it removes, and leaves the
others. -/
theorem exists_walk {n m : Nat} {q : SparseSet} {c : Cells} (valid : q.Valid n)
    (size : c.values.get? q.size.index = some (m : Int)) (le : m ≤ n) (drops : Nat → Bool) :
    ∃ q' c' l, walk (fun i => .ok (drops i)) m q c =
        .ok ((q.elements.toList.take m).reverse, q', c') ∧
      q'.members c' = .ok l ∧ l.Perm ((q.elements.toList.take m).filter fun i => !drops i) := by
  obtain ⟨⟨q', c'⟩, swept⟩ : ∃ r, sweep (fun i => .ok (drops i)) m q c = .ok r :=
    exists_sweep valid size le (Nat.le_refl m) fun i _ => ⟨drops i, rfl⟩
  obtain ⟨valid', same, -, m', -, size', left, -⟩ :=
    sweep_spec valid size le (Nat.le_refl m) (fun j i above below => by omega) swept
  rw [sweep_eq_walk] at swept
  cases walked : walk (fun i => .ok (drops i)) m q c with
  | error cause => simp [walked, Except.map] at swept
  | ok result =>
    obtain ⟨visited, end'⟩ := result
    simp only [walked, Except.map, Except.ok.injEq] at swept
    subst swept
    rw [visited_of_walk valid size (Nat.le_refl m) walked]
    refine ⟨q', c', _, rfl, members_eq_ok (by rw [same]; exact size'), ?_⟩
    refine (List.perm_ext_iff_of_nodup (valid'.nodup_take m')
      ((valid.nodup_take m).filter _)).2 fun i => ?_
    simp [List.mem_filter, mem_take_iff, left]

/-! ## Diaries -/

/-- What can be asked of a set and its cells. -/
inductive Request
  | removeAt (position : Nat)
  | checkpoint
  | undoTo (k : Nat)
  deriving DecidableEq, Repr

/-- The position is that of a member, and the checkpoint lies below the current one. -/
def Request.Valid (size depth : Nat) : Request → Prop
  | removeAt position => position < size
  | checkpoint => True
  | undoTo k => k < depth

/-- A set and its cells, and the members that it had when the checkpoints up to the current one were
opened, the latest first. -/
structure Diary where
  set : SparseSet
  cells : Cells
  opened : List (List Nat)
  deriving DecidableEq, Repr

namespace Diary

/-- Performs a request. The members are written down whenever a checkpoint is opened. -/
def perform (d : Diary) : Request → Except Fault Diary
  | .removeAt position => do
    let (set, cells) ← d.set.removeAt position d.cells
    return { d with set, cells }
  | .checkpoint => do
    let members ← d.set.members d.cells
    return { d with cells := d.cells.checkpoint, opened := members :: d.opened }
  | .undoTo k => do
    let cells ← d.cells.undoTo k
    return { d with cells, opened := d.opened.drop (d.cells.depth - k) }

/-- The members that the set had when the checkpoint after the given one was opened; all numbers
below `n` if it was made later. -/
def asOf (n : Nat) (d : Diary) (checkpoint : Nat) : List Nat :=
  d.opened[d.cells.depth - (checkpoint + 1)]?.getD (List.range n)

/-- As of each checkpoint the set had as many members as given, not more than at any earlier one,
and as many of the first elements are those that were written down. This was done for all
checkpoints above the first `older` ones. -/
structure Tracks (n older : Nat) (size : Nat → Nat) (d : Diary) : Prop where
  mirrored : d.set.Mirrored n
  le : ∀ k, size k ≤ n
  falls : ∀ j k, j ≤ k → size k ≤ size j
  past : ∀ k, (d.cells.past k).get? d.set.size.index = some (size k : Int)
  recalls : ∀ k, k < d.cells.depth → (d.set.elements.toList.take (size k)).Perm (d.asOf n k)
  complete : d.cells.depth ≤ older + d.opened.length

namespace Tracks

variable {n older : Nat} {size : Nat → Nat} {d d' : Diary} (h : d.Tracks n older size)
include h

/-- The number of members is the one as of the current checkpoint. -/
theorem count : d.cells.values.get? d.set.size.index = some (size d.cells.depth : Int) := by
  rw [← h.past, Cells.past_of_depth_le (Nat.le_refl _)]

theorem members : d.set.members d.cells = .ok (d.set.elements.toList.take (size d.cells.depth)) :=
  members_eq_ok h.count

theorem length_take (k : Nat) : (d.set.elements.toList.take (size k)).length = size k := by
  rw [List.length_take, h.mirrored.valid.perm_range.length_eq, List.length_range]
  exact Nat.min_eq_left (h.le k)

theorem exists_element {p : Nat} (lt : p < size d.cells.depth) :
    ∃ element, d.set.elements.get? p = some element :=
  Table.exists_get? (by rw [h.mirrored.elements]; exact Nat.lt_of_lt_of_le lt (h.le _))

/-- A removal lowers the number as of now and leaves those as of earlier checkpoints. -/
theorem removeAt {position element : Nat} {set : SparseSet} {cells : Cells}
    (here : d.set.elements.get? position = some element)
    (removed : d.set.removeAt position d.cells = .ok (set, cells)) :
    Tracks n older (fun k => if k < d.cells.depth then size k else size d.cells.depth - 1)
      { d with set, cells } := by
  have valid := h.mirrored.valid
  obtain ⟨-, -, same, evolves, fewer, -⟩ := removeAt_spec valid h.count here removed
  refine ⟨h.mirrored.removeAt h.count here removed, fun k => ?_, fun j k le => ?_, fun k => ?_,
    fun k below => ?_, evolves.depth ▸ h.complete⟩
  · have := h.le k
    have := h.le d.cells.depth
    split <;> omega
  · have := h.falls j k le
    have := h.falls j d.cells.depth
    split <;> split <;> omega
  · simp only [same]
    split
    · rename_i below
      rw [evolves.past k below, h.past]
    · rw [Cells.past_of_depth_le (by rw [evolves.depth]; omega)]
      exact fewer
  · simp only [evolves.depth] at below
    have recalls := h.recalls k below
    simp only [asOf, evolves.depth, below, if_true] at recalls ⊢
    exact (perm_take_of_removeAt valid h.count here removed
      (h.falls k _ (Nat.le_of_lt below))).trans recalls

/-- A new checkpoint has the members of now. -/
theorem checkpoint : Tracks n older size
    { d with
      cells := d.cells.checkpoint
      opened := d.set.elements.toList.take (size d.cells.depth) :: d.opened } := by
  have deeper : d.cells.checkpoint.depth = d.cells.depth + 1 := Trail.depth_checkpoint _
  refine ⟨h.mirrored, h.le, h.falls, fun k => by rw [Cells.past_checkpoint, h.past],
    fun k below => ?_, ?_⟩
  · simp only [deeper] at below
    simp only [asOf, deeper]
    by_cases now : k = d.cells.depth
    · subst now
      simp
    · have earlier : d.cells.depth + 1 - (k + 1) = d.cells.depth - (k + 1) + 1 := by omega
      rw [earlier, List.getElem?_cons_succ]
      exact h.recalls k (by omega)
  · have := h.complete
    simp only [deeper, List.length_cons]
    omega

/-- The return to a checkpoint forgets all later ones. -/
theorem undoTo {j : Nat} {cells : Cells} (undone : d.cells.undoTo j = .ok cells) :
    Tracks n older (fun k => size (min j k))
      { d with cells, opened := d.opened.drop (d.cells.depth - j) } := by
  obtain ⟨above, depth, past, -⟩ := Cells.undo_spec undone
  refine ⟨h.mirrored, fun k => h.le _, fun i k le => h.falls _ _ (by omega), fun k => ?_,
    fun k below => ?_, ?_⟩
  · rw [past, h.past]
  · simp only [depth] at below
    have earlier : d.cells.depth - j + (j - (k + 1)) = d.cells.depth - (k + 1) := by omega
    simp only [asOf, depth, List.getElem?_drop, earlier]
    rw [Nat.min_eq_right (Nat.le_of_lt below)]
    exact h.recalls k (Nat.lt_trans below above)
  · have := h.complete
    simp only [depth, List.length_drop]
    omega

/-- Requests with positions of members and earlier checkpoints are performed, and no others. -/
theorem exists_perform_iff (r : Request) :
    (∃ d', d.perform r = .ok d') ↔ r.Valid (size d.cells.depth) d.cells.depth := by
  cases r with
  | removeAt position =>
    constructor
    · rintro ⟨d', performed⟩
      obtain ⟨⟨set, cells⟩, removed, -⟩ := bind_eq_ok_iff.1 performed
      exact lt_of_removeAt h.count removed
    · intro lt
      obtain ⟨⟨set, cells⟩, removed⟩ := exists_removeAt h.mirrored.valid h.count (h.le _) lt
      exact ⟨_, bind_eq_ok_iff.2 ⟨_, removed, rfl⟩⟩
  | checkpoint => exact ⟨fun _ => trivial, fun _ => ⟨_, bind_eq_ok_iff.2 ⟨_, h.members, rfl⟩⟩⟩
  | undoTo k =>
    constructor
    · rintro ⟨d', performed⟩
      obtain ⟨cells, undone, -⟩ := bind_eq_ok_iff.1 performed
      exact (Cells.undo_spec undone).1
    · intro above
      obtain ⟨cells, undone⟩ := Cells.exists_undoTo above
      exact ⟨_, bind_eq_ok_iff.2 ⟨cells, undone, rfl⟩⟩

/-- Every request keeps track. -/
theorem perform {r : Request} (performed : d.perform r = .ok d') :
    ∃ size', d'.Tracks n older size' := by
  cases r with
  | removeAt position =>
    obtain ⟨⟨set, cells⟩, removed, last⟩ := bind_eq_ok_iff.1 performed
    cases last
    obtain ⟨element, here⟩ := h.exists_element (lt_of_removeAt h.count removed)
    exact ⟨_, h.removeAt here removed⟩
  | checkpoint =>
    obtain ⟨members, read, last⟩ := bind_eq_ok_iff.1 performed
    cases last
    rw [h.members] at read
    cases read
    exact ⟨_, h.checkpoint⟩
  | undoTo k =>
    obtain ⟨cells, undone, last⟩ := bind_eq_ok_iff.1 performed
    cases last
    exact ⟨_, h.undoTo undone⟩

/-- So does every sequence of requests. -/
theorem performs {requests : List Request} (performed : requests.foldlM Diary.perform d = .ok d') :
    ∃ size', d'.Tracks n older size' := by
  induction requests generalizing d size with
  | nil =>
    cases performed
    exact ⟨size, h⟩
  | cons r requests ih =>
    rw [List.foldlM_cons] at performed
    obtain ⟨d₁, first, rest⟩ := bind_eq_ok_iff.1 performed
    obtain ⟨size₁, h₁⟩ := h.perform first
    exact ih h₁ rest

end Tracks

/-- A new set tracks its past, in which it had all numbers. -/
theorem tracks_of_create {n : Nat} {c₀ c : Cells} {q : SparseSet} (recorded : c₀.Recorded)
    (created : create n c₀ = .ok (q, c)) : Tracks n c₀.depth (fun _ => n) ⟨q, c, []⟩ := by
  obtain ⟨⟨⟩, -, last⟩ := bind_eq_ok_iff.1 created
  cases last
  refine ⟨mirrored_full n _, fun _ => Nat.le_refl n, fun _ _ _ => Nat.le_refl n, fun k => ?_,
    fun k below => ?_, Nat.le_refl _⟩
  · simp only [Cells.past_grow recorded, full, Cells.next]
    rw [Table.get?_push, if_pos (Cells.size_past c₀ k).symm]
  · simp [asOf, full, Table.ofList, Table.toList]

/-- The set has the members `l`, and what is asked of it next is answered accordingly. -/
structure Represents (n : Nat) (d : Diary) (l : List Nat) : Prop where
  /-- Every number below `n` is an element at one position. -/
  elements : d.set.elements.toList.Perm (List.range n)
  /-- Every position is that of one element. -/
  positions : d.set.positions.toList.Perm (List.range n)
  inverse : ∀ p i, d.set.elements.get? p = some i ↔ d.set.positions.get? i = some p
  members : d.set.members d.cells = .ok l
  length : d.set.length d.cells = .ok l.length
  /-- The members are the first elements. -/
  first : l = d.set.elements.toList.take l.length
  nodup : l.Nodup
  contains : ∀ i, d.set.contains d.cells i = .ok (decide (i ∈ l))
  /-- Requests with positions of members and earlier checkpoints are performed, and no others. -/
  answers : ∀ r : Request, (∃ d', d.perform r = .ok d') ↔ r.Valid l.length d.cells.depth
  /-- A removal removes the element at its position and no other. -/
  removes : ∀ p i d', l[p]? = some i → d.perform (.removeAt p) = .ok d' →
    ∃ l', d'.set.members d'.cells = .ok l' ∧ l'.Perm (l.erase i)
  /-- The return to a checkpoint brings back the members that were there when the next one was
  opened. -/
  returns : ∀ k d', d.perform (.undoTo k) = .ok d' →
    ∃ l', d'.set.members d'.cells = .ok l' ∧ l'.Perm (d.asOf n k)
  /-- A walk comes to every member once, whichever it removes, and leaves the others. -/
  walks : ∀ drops : Nat → Bool, ∃ q c l',
    d.set.walk (fun i => .ok (drops i)) l.length d.cells = .ok (l.reverse, q, c) ∧
      q.members c = .ok l' ∧ l'.Perm (l.filter fun i => !drops i)

/-- A diary that tracks the past of its set represents it. -/
theorem Tracks.represents {n older : Nat} {size : Nat → Nat} {d : Diary}
    (h : d.Tracks n older size) :
    d.Represents n (d.set.elements.toList.take (size d.cells.depth)) := by
  have valid := h.mirrored.valid
  have length := h.length_take d.cells.depth
  refine ⟨valid.perm_range, h.mirrored.perm_positions, h.mirrored.inverse, h.members,
    ?_, ?_, valid.nodup_take _, h.mirrored.contains_eq h.count, fun r => ?_,
    fun p i d' at_p performed => ?_, fun k d' performed => ?_, fun drops => ?_⟩
  · rw [length, length_eq_ok h.count]
  · rw [length]
  · rw [length, h.exists_perform_iff]
  · obtain ⟨⟨set, cells⟩, removed, last⟩ := bind_eq_ok_iff.1 performed
    cases last
    rw [List.getElem?_take, getElem?_toList, if_pos (lt_of_removeAt h.count removed)] at at_p
    refine ⟨_, (h.removeAt at_p removed).members, ?_⟩
    obtain ⟨-, -, -, evolves, -⟩ := removeAt_spec valid h.count at_p removed
    simp only [evolves.depth, Nat.lt_irrefl, if_false]
    exact perm_erase_of_removeAt valid h.count at_p removed
  · obtain ⟨cells, undone, last⟩ := bind_eq_ok_iff.1 performed
    cases last
    obtain ⟨above, depth, -⟩ := Cells.undo_spec undone
    refine ⟨_, (h.undoTo undone).members, ?_⟩
    simp only [depth, Nat.min_self]
    exact h.recalls k above
  · rw [length]
    exact exists_walk valid h.count (h.le _) drops

/-- Let a set of the numbers below `n` be made, whatever else its cells hold, and let members be
removed, checkpoints be opened and returns be made in any order. Then elements and positions are
permutations of these numbers that are inverse to each other, and the members are the first
elements. A removal takes out the element at its position alone, the return to a checkpoint brings
back the members that were there when the next one was opened, and a walk from the last member to
the first comes to each of them once, whichever it removes. -/
theorem represents_of_requests {n : Nat} {c₀ c : Cells} {q : SparseSet} {requests : List Request}
    {d : Diary} (recorded : c₀.Recorded) (created : create n c₀ = .ok (q, c))
    (ran : requests.foldlM perform ⟨q, c, []⟩ = .ok d) :
    d.cells.depth ≤ c₀.depth + d.opened.length ∧ ∃ l, d.Represents n l := by
  obtain ⟨size, h⟩ := (tracks_of_create recorded created).performs ran
  exact ⟨h.complete, _, h.represents⟩

/-- Of four numbers one is removed at the first checkpoint. Those that are removed at the second one
come back. -/
def trip : List Request :=
  [.checkpoint, .removeAt 0, .checkpoint, .removeAt 1, .removeAt 1, .undoTo 1]

/-- What is left of the trip. -/
def tripEnd : Diary where
  set := ⟨.ofList [3, 2, 1, 0], .ofList [3, 2, 1, 0], ⟨0⟩⟩
  cells := ⟨.ofList [3], ⟨[⟨⟨0⟩, 4⟩], [[]]⟩⟩
  opened := [[0, 1, 2, 3]]

theorem represents_of_requests_trip : Cells.empty.Recorded ∧
    create 4 Cells.empty = .ok (full 4 ⟨0⟩, Cells.empty.grow 4) ∧
    trip.foldlM perform ⟨full 4 ⟨0⟩, Cells.empty.grow 4, []⟩ = .ok tripEnd ∧
    tripEnd.cells.depth ≤ Cells.empty.depth + tripEnd.opened.length ∧
    ∃ l, tripEnd.Represents 4 l :=
  have recorded : Cells.empty.Recorded := fun _ mem => by cases mem
  have created : create 4 Cells.empty = .ok (full 4 ⟨0⟩, Cells.empty.grow 4) := by decide
  have ran : trip.foldlM perform ⟨full 4 ⟨0⟩, Cells.empty.grow 4, []⟩ = .ok tripEnd := by decide
  ⟨recorded, created, ran, represents_of_requests recorded created ran⟩

end Diary

end SparseSet

end Scheduling
