import Mathlib.Tactic.Common
import Scheduling.Propagation

/-!
# Backtracking

The domains and cells of every checkpoint below the current one can be recovered from the trails.
Invariants of a search are invariants of all these states, since a later return may bring any of
them back.

Results:
* `Trail.rewind`: the state as it was when a checkpoint was left, and what recording, opening a
  checkpoint and returning do to it.
* `Domains.past`, `Cells.past`: the domains and the values of the cells as of a checkpoint.
* `Domains.past_addInteger`, `Domains.past_addInterval`, `Cells.past_grow`: new rows belong to the
  past as well.
* `Domains.undo_spec`, `Cells.undo_spec`: returning to a checkpoint brings its state back.
-/

namespace Scheduling

namespace Trail

variable {α σ : Type} {f : σ → α → σ}

/-- The state as it was when the given checkpoint was left; the state itself if that has not
happened yet. -/
def rewind (restore : σ → α → σ) (t : Trail α) (s : σ) (k : Nat) : σ :=
  (dropLevels (t.depth - k) t.current t.earlier).1.foldl restore s

theorem rewind_of_depth_le {t : Trail α} {k : Nat} (h : t.depth ≤ k) (s : σ) :
    t.rewind f s k = s := by
  rw [rewind, Nat.sub_eq_zero_of_le h]
  rfl

theorem rewind_push {t : Trail α} {k : Nat} (h : k < t.depth) (entry : α) (s : σ) :
    (t.push entry).rewind f s k = t.rewind f (f s entry) k := by
  obtain ⟨current, earlier⟩ := t
  obtain ⟨n, levels⟩ : ∃ n, earlier.length - k = n + 1 :=
    ⟨earlier.length - k - 1, by simp only [depth] at h; omega⟩
  cases earlier with
  | nil => simp only [depth, List.length_nil] at h; omega
  | cons below earlier => simp only [rewind, push, depth, levels, dropLevels, List.cons_append,
      List.foldl_cons]

theorem rewind_checkpoint (t : Trail α) (s : σ) (k : Nat) :
    t.checkpoint.rewind f s k = t.rewind f s k := by
  obtain ⟨current, earlier⟩ := t
  by_cases left : k ≤ earlier.length
  · have levels : (checkpoint ⟨current, earlier⟩).depth - k = (earlier.length - k) + 1 := by
      show earlier.length + 1 - k = earlier.length - k + 1
      omega
    rw [rewind, levels]
    rfl
  · have ahead : (checkpoint ⟨current, earlier⟩).depth ≤ k := Nat.lt_of_not_le left
    have above : (⟨current, earlier⟩ : Trail α).depth ≤ k := Nat.le_of_not_le left
    rw [rewind_of_depth_le ahead, rewind_of_depth_le above]

/-- Dropping levels in two steps hands back what dropping them at once does. -/
theorem dropLevels_dropLevels (m n : Nat) (current : List α) (earlier : List (List α)) :
    (dropLevels m current earlier).1 ++
        (dropLevels n (dropLevels m current earlier).2.current
          (dropLevels m current earlier).2.earlier).1 =
      (dropLevels (m + n) current earlier).1 := by
  induction m generalizing current earlier with
  | zero => simp [dropLevels]
  | succ m ih =>
    have next : m + 1 + n = m + n + 1 := by omega
    cases earlier with
    | nil => rw [next]; cases n <;> simp [dropLevels]
    | cons below earlier =>
      rw [next]
      simp only [dropLevels, List.append_assoc, ih]

/-- Returning to a checkpoint keeps the states of that and of all earlier checkpoints. -/
theorem rewind_undoTo {t rest : Trail α} {popped : List α} {j : Nat}
    (h : t.undoTo j = .ok (popped, rest)) (s : σ) (k : Nat) :
    rest.rewind f (popped.foldl f s) k = t.rewind f s (min j k) := by
  have left := undoTo_depth h
  unfold undoTo at h
  split at h
  · rename_i above
    simp only [Except.ok.injEq] at h
    have first : popped = (dropLevels (t.depth - j) t.current t.earlier).1 := by rw [h]
    have second : rest = (dropLevels (t.depth - j) t.current t.earlier).2 := by rw [h]
    have levels : (t.depth - j) + (j - k) = t.depth - min j k := by omega
    rw [rewind, ← List.foldl_append, left, first, second, dropLevels_dropLevels, levels, rewind]
  · simp at h

theorem mem_of_mem_dropLevels {n : Nat} {current : List α} {earlier : List (List α)} {entry : α}
    (h : entry ∈ (dropLevels n current earlier).1) : entry ∈ toList ⟨current, earlier⟩ := by
  rw [← dropLevels_toList n current earlier]
  exact List.mem_append_right _ (List.mem_reverse.2 h)

/-- A property that every recorded entry keeps when it is restored holds of all past states. -/
theorem rewind_induction {P : σ → Prop} {t : Trail α} {s : σ}
    (step : ∀ entry ∈ t.toList, ∀ s, P s → P (f s entry)) (start : P s) (k : Nat) :
    P (t.rewind f s k) := by
  have all (popped : List α) (recorded : ∀ entry ∈ popped, entry ∈ t.toList) (s : σ) (h : P s) :
      P (popped.foldl f s) := by
    induction popped generalizing s with
    | nil => exact h
    | cons entry popped ih =>
      exact ih (fun e mem => recorded e (List.mem_cons_of_mem _ mem)) _
        (step entry (recorded entry List.mem_cons_self) s h)
  exact all _ (fun _ mem => mem_of_mem_dropLevels mem) s start

/-- Two states that are restored alike have past states that are related like them. -/
theorem rewind_relate {R : σ → σ → Prop} {t : Trail α} {s s' : σ}
    (step : ∀ entry ∈ t.toList, ∀ s s', R s s' → R (f s entry) (f s' entry))
    (start : R s s') (k : Nat) : R (t.rewind f s k) (t.rewind f s' k) := by
  have all (popped : List α) (recorded : ∀ entry ∈ popped, entry ∈ t.toList) (s s' : σ)
      (h : R s s') : R (popped.foldl f s) (popped.foldl f s') := by
    induction popped generalizing s s' with
    | nil => exact h
    | cons entry popped ih =>
      exact ih (fun e mem => recorded e (List.mem_cons_of_mem _ mem)) _ _
        (step entry (recorded entry List.mem_cons_self) s s' h)
  exact all _ (fun _ mem => mem_of_mem_dropLevels mem) s s' start

theorem mem_toList_of_undoTo {t rest : Trail α} {popped : List α} {j : Nat} {entry : α}
    (h : t.undoTo j = .ok (popped, rest)) (mem : entry ∈ rest.toList) : entry ∈ t.toList := by
  rw [← undoTo_toList h]
  exact List.mem_append_left _ mem

end Trail

namespace Table

variable {α : Type}

theorem lt_size_of_get? {t : Table α} {key : Nat} {row : α} (h : t.get? key = some row) :
    key < t.size := by
  refine Nat.lt_of_not_le fun beyond => ?_
  simp [get?_eq_none_iff.2 beyond] at h

theorem exists_get? {t : Table α} {key : Nat} (h : key < t.size) : ∃ row, t.get? key = some row := by
  cases found : t.get? key with
  | none => have := get?_eq_none_iff.1 found; omega
  | some row => exact ⟨row, rfl⟩

theorem ext_get? {t u : Table α} (h : ∀ key, t.get? key = u.get? key) : t = u := by
  obtain ⟨t⟩ := t
  obtain ⟨u⟩ := u
  simp only [get?] at h
  exact congrArg Table.mk (Array.ext_getElem? h)

theorem set_push {t : Table α} {key : Nat} (h : key < t.size) (row added : α) :
    (t.push added).set key row = (t.set key row).push added := by
  apply ext_get?
  intro other
  simp only [get?_set, get?_push, size_push, size_set]
  by_cases same : key = other
  · subst same
    simp [h, show key < t.size + 1 by omega, show key ≠ t.size by omega]
  · simp [same]

/-- Writing a row and then the row that was there changes nothing. -/
theorem set_set_of_get? {t : Table α} {key : Nat} {row : α} (h : t.get? key = some row)
    (other : α) : (t.set key other).set key row = t := by
  apply ext_get?
  intro k
  simp only [get?_set, size_set]
  have := lt_size_of_get? h
  by_cases same : key = k
  · subst same; simp [this, h]
  · simp [same]

end Table

/-! ## Domains -/

namespace Domains

/-- The rows alone, as of a state in which nothing is recorded and no event is pending. -/
def rows (d : Domains) : Domains := { d with trail := .empty, events := [] }

/-- The rows as they were when the given checkpoint was left; those of now if that has not happened
yet. -/
def past (d : Domains) (k : Nat) : Domains := d.trail.rewind restore d.rows k

/-- Every change on the trail is one of a row that exists. -/
def Recorded (d : Domains) : Prop :=
  ∀ change ∈ d.trail.toList, match change with
    | .integer x _ => x.index < d.integers.size
    | .interval i _ => i.index < d.intervals.size

theorem past_of_depth_le {d : Domains} {k : Nat} (h : d.depth ≤ k) : d.past k = d.rows :=
  Trail.rewind_of_depth_le h _

theorem past_depth (d : Domains) : d.past d.depth = d.rows := past_of_depth_le (Nat.le_refl _)

@[simp] theorem past_dropEvents (d : Domains) (k : Nat) : d.dropEvents.past k = d.past k := rfl

@[simp] theorem past_checkpoint (d : Domains) (k : Nat) : d.checkpoint.past k = d.past k :=
  Trail.rewind_checkpoint ..

theorem size_past (d : Domains) (k : Nat) :
    (d.past k).integers.size = d.integers.size ∧ (d.past k).intervals.size = d.intervals.size := by
  have same := Trail.rewind_induction (f := restore) (t := d.trail) (s := d.rows)
    (P := fun c => c.integers.size = d.integers.size ∧ c.intervals.size = d.intervals.size)
    (fun change _ c h => by cases change <;> simpa [restore] using h) ⟨rfl, rfl⟩ k
  exact same

/-- A recorded change of a row leaves the past as it was. -/
theorem past_commit_integer {d : Domains} {x : IntegerId} {old new : IntegerDomain}
    (h : d.integer x = .ok old) (v : Watched) (events : List Event) {k : Nat} (below : k < d.depth) :
    (({ d with integers := d.integers.set x.index new } : Domains).commit (.integer x old) v
      events).past k = d.past k := by
  have back : restore ({ d with integers := d.integers.set x.index new } : Domains).rows
      (.integer x old) = d.rows := by
    simp only [restore, rows, Table.set_set_of_get? (integer_eq_ok_iff.1 h)]
  simp only [past, commit]
  rw [Trail.rewind_push below]
  exact congrArg (d.trail.rewind restore · k) back

theorem past_commit_interval {d : Domains} {i : IntervalId} {old new : Interval}
    (h : d.interval i = .ok old) (v : Watched) (events : List Event) {k : Nat}
    (below : k < d.depth) :
    (({ d with intervals := d.intervals.set i.index new } : Domains).commit (.interval i old) v
      events).past k = d.past k := by
  have back : restore ({ d with intervals := d.intervals.set i.index new } : Domains).rows
      (.interval i old) = d.rows := by
    simp only [restore, rows, Table.set_set_of_get? (interval_eq_ok_iff.1 h)]
  simp only [past, commit]
  rw [Trail.rewind_push below]
  exact congrArg (d.trail.rewind restore · k) back

theorem past_addInteger {d : Domains} (recorded : d.Recorded) (row : IntegerDomain) (k : Nat) :
    (d.addInteger row).past k = (d.past k).addInteger row := by
  have related := Trail.rewind_relate (f := restore) (t := d.trail)
    (R := fun c c' => c' = c.addInteger row ∧ c.integers.size = d.integers.size)
    (fun change mem c c' h => ?_)
    (show (d.addInteger row).rows = d.rows.addInteger row ∧ _ from ⟨rfl, rfl⟩) k
  · exact related.1
  · obtain ⟨rfl, size⟩ := h
    have inside := recorded change mem
    cases change with
    | integer x old =>
      simp only [restore, addInteger, Table.size_set, size, and_true]
      rw [Table.set_push (by rw [size]; exact inside)]
    | interval i old => exact ⟨rfl, size⟩

theorem past_addInterval {d : Domains} (recorded : d.Recorded) (row : Interval) (k : Nat) :
    (d.addInterval row).past k = (d.past k).addInterval row := by
  have related := Trail.rewind_relate (f := restore) (t := d.trail)
    (R := fun c c' => c' = c.addInterval row ∧ c.intervals.size = d.intervals.size)
    (fun change mem c c' h => ?_)
    (show (d.addInterval row).rows = d.rows.addInterval row ∧ _ from ⟨rfl, rfl⟩) k
  · exact related.1
  · obtain ⟨rfl, size⟩ := h
    have inside := recorded change mem
    cases change with
    | integer x old => exact ⟨rfl, size⟩
    | interval i old =>
      simp only [restore, addInterval, Table.size_set, size, and_true]
      rw [Table.set_push (by rw [size]; exact inside)]

theorem rows_foldl_restore (popped : List Change) (d : Domains) :
    (popped.foldl restore d).rows = popped.foldl restore d.rows := by
  induction popped generalizing d with
  | nil => rfl
  | cons change popped ih => cases change <;> exact ih _

theorem trail_foldl_restore (popped : List Change) (d : Domains) :
    (popped.foldl restore d).trail = d.trail ∧ (popped.foldl restore d).events = d.events ∧
      (popped.foldl restore d).integers.size = d.integers.size ∧
      (popped.foldl restore d).intervals.size = d.intervals.size := by
  induction popped generalizing d with
  | nil => exact ⟨rfl, rfl, rfl, rfl⟩
  | cons change popped ih =>
    obtain ⟨trail, events, integers, intervals⟩ := ih (d.restore change)
    cases change <;> simp_all [restore]

/-- Returning to a checkpoint brings its rows back and keeps the past of the earlier ones. -/
theorem undo_spec {d d' : Domains} {j : Nat} (h : d.undoTo j = .ok d') :
    j < d.depth ∧ d'.depth = j ∧ d'.events = [] ∧ (∀ k, d'.past k = d.past (min j k)) ∧
      (d.Recorded → d'.Recorded) := by
  simp only [undoTo, bind, Except.bind] at h
  cases undone : d.trail.undoTo j with
  | error cause => simp [undone] at h
  | ok result =>
    obtain ⟨popped, rest⟩ := result
    simp only [undone, pure, Except.pure, Except.ok.injEq] at h
    obtain ⟨trail, events, integers, intervals⟩ :=
      trail_foldl_restore popped { d with trail := rest, events := [] }
    rw [h] at trail events integers intervals
    have below : j < d.depth := by
      by_contra above
      simp [Trail.undoTo_eq_error_iff.2 ⟨Nat.le_of_not_lt above, rfl⟩] at undone
    refine ⟨below, ?_, events, fun k => ?_, fun recorded change mem => ?_⟩
    · rw [depth, trail, Trail.undoTo_depth undone]
    · rw [past, trail, ← h, rows_foldl_restore]
      exact Trail.rewind_undoTo undone _ k
    · rw [trail] at mem
      have inside := recorded change (Trail.mem_toList_of_undoTo undone mem)
      cases change <;> simpa [integers, intervals] using inside

end Domains

/-! ## Cells -/

namespace Cells

/-- The current checkpoint. -/
def depth (c : Cells) : Nat := c.trail.depth

/-- The values as they were when the given checkpoint was left; those of now if that has not
happened yet. -/
def past (c : Cells) (k : Nat) : Table Int := c.trail.rewind restore c.values k

/-- Every write on the trail is one of a cell that exists. -/
def Recorded (c : Cells) : Prop := ∀ entry ∈ c.trail.toList, entry.cell.index < c.values.size

theorem past_of_depth_le {c : Cells} {k : Nat} (h : c.depth ≤ k) : c.past k = c.values :=
  Trail.rewind_of_depth_le h _

@[simp] theorem past_checkpoint (c : Cells) (k : Nat) : c.checkpoint.past k = c.past k :=
  Trail.rewind_checkpoint ..

theorem size_past (c : Cells) (k : Nat) : (c.past k).size = c.values.size :=
  Trail.rewind_induction (f := restore) (P := fun t => t.size = c.values.size)
    (fun entry _ t h => by simpa [restore] using h) rfl k

theorem past_grow {c : Cells} (recorded : c.Recorded) (value : Int) (k : Nat) :
    (c.grow value).past k = (c.past k).push value := by
  have related := Trail.rewind_relate (f := restore) (t := c.trail)
    (R := fun t t' => t' = t.push value ∧ t.size = c.values.size)
    (fun entry mem t t' h => ?_)
    (show c.values.push value = c.values.push value ∧ _ from ⟨rfl, rfl⟩) k
  · exact related.1
  · obtain ⟨rfl, size⟩ := h
    simp only [restore, Table.size_set, size, and_true]
    exact Table.set_push (by rw [size]; exact recorded entry mem) _ _

theorem recorded_grow {c : Cells} (recorded : c.Recorded) (value : Int) :
    (c.grow value).Recorded := by
  intro entry mem
  have := recorded entry mem
  simp only [grow, Table.size_push]
  omega

/-- What a successful write does. -/
theorem assign_spec {c c' : Cells} {cell : CellId} {value : Int}
    (h : c.assign cell value = .ok c') :
    cell.index < c.values.size ∧ c'.values = c.values.set cell.index value ∧
      c'.depth = c.depth ∧ (∀ k, k < c.depth → c'.past k = c.past k) ∧
      (c.Recorded → c'.Recorded) := by
  cases known : c.read cell with
  | error cause => simp [assign, known, bind, Except.bind] at h
  | ok old =>
    have row := read_eq_ok_iff.1 known
    have inside := Table.lt_size_of_get? row
    simp only [assign, known, bind, Except.bind] at h
    split at h
    · rename_i same
      cases h
      refine ⟨inside, ?_, rfl, fun _ _ => rfl, id⟩
      apply Table.ext_get?
      intro key
      rw [Table.get?_set]
      split
      · rename_i eq; rw [← eq, row, same]
      · rfl
    · cases h
      refine ⟨inside, rfl, rfl, fun k below => ?_, fun recorded entry mem => ?_⟩
      · have back : restore (c.values.set cell.index value) ⟨cell, old⟩ = c.values :=
          Table.set_set_of_get? row _
        simp only [past]
        rw [Trail.rewind_push below, back]
      · simp only [Trail.toList_push, List.mem_append, List.mem_singleton] at mem
        simp only [Table.size_set]
        rcases mem with mem | rfl
        · exact recorded entry mem
        · exact inside

/-- Returning to a checkpoint brings its values back and keeps the past of the earlier ones. -/
theorem undo_spec {c c' : Cells} {j : Nat} (h : c.undoTo j = .ok c') :
    j < c.depth ∧ c'.depth = j ∧ (∀ k, c'.past k = c.past (min j k)) ∧
      (c.Recorded → c'.Recorded) := by
  simp only [undoTo, bind, Except.bind] at h
  cases undone : c.trail.undoTo j with
  | error cause => simp [undone] at h
  | ok result =>
    obtain ⟨popped, rest⟩ := result
    simp only [undone, pure, Except.pure, Except.ok.injEq] at h
    subst h
    have below : j < c.depth := by
      by_contra above
      simp [Trail.undoTo_eq_error_iff.2 ⟨Nat.le_of_not_lt above, rfl⟩] at undone
    have size : (popped.foldl restore c.values).size = c.values.size := by
      have all (popped : List Overwritten) (values : Table Int) :
          (popped.foldl restore values).size = values.size := by
        induction popped generalizing values with
        | nil => rfl
        | cons entry popped ih => exact (ih _).trans (Table.size_set ..)
      exact all popped c.values
    refine ⟨below, Trail.undoTo_depth undone, fun k => Trail.rewind_undoTo undone _ k,
      fun recorded entry mem => ?_⟩
    simpa [size] using recorded entry (Trail.mem_toList_of_undoTo undone mem)

end Cells

end Scheduling
