import Scheduling.Fault

/-!
# Trails

A `Trail` records changes so that they can be undone. Checkpoints split it into levels; returning to
a checkpoint hands back everything recorded since that checkpoint was opened, most recent first.

* `Trail.toList_push`, `Trail.toList_checkpoint`: what recording and opening a checkpoint do.
* `Trail.undoTo_eq_error_iff`: returning fails exactly for a checkpoint that is not below the
  current one.
* `Trail.undoTo_depth`: the given checkpoint is then the current one.
* `Trail.undoTo_toList`: what is handed back, reversed, is the end of the trail, and the rest stays.
-/

namespace Scheduling

/-- The entries recorded at the current checkpoint and, below it, those of the earlier checkpoints,
each level with its most recent entry first (`Trail`). -/
structure Trail (α : Type) where
  current : List α
  earlier : List (List α)
  deriving DecidableEq, Repr

namespace Trail

variable {α : Type}

/-- Nothing is recorded, and the root is the current checkpoint. -/
def empty : Trail α := ⟨[], []⟩

instance : Inhabited (Trail α) := ⟨empty⟩

/-- The current checkpoint; the root is `0` (`get_checkpoint`). -/
def depth (t : Trail α) : Nat := t.earlier.length

/-- The entries in the order in which they were recorded. -/
def toList (t : Trail α) : List α := (t.current ++ t.earlier.flatten).reverse

/-- The number of entries. -/
def size (t : Trail α) : Nat := t.current.length + t.earlier.flatten.length

/-- Records an entry at the current checkpoint (`push`). -/
def push (t : Trail α) (entry : α) : Trail α := { t with current := entry :: t.current }

/-- Opens the next checkpoint (`new_checkpoint`). -/
def checkpoint (t : Trail α) : Trail α := ⟨[], t.current :: t.earlier⟩

/-- Takes off the top `n` levels: their entries, most recent first, and the trail below them. -/
def dropLevels : Nat → List α → List (List α) → List α × Trail α
  | 0, current, earlier => ([], ⟨current, earlier⟩)
  | _ + 1, current, [] => (current, ⟨[], []⟩)
  | n + 1, current, below :: earlier =>
    let (popped, rest) := dropLevels n below earlier
    (current ++ popped, rest)

/-- Returns to the given checkpoint: the entries recorded since it was left, most recent first, and
the trail as it was then (`synchronise`). -/
def undoTo (t : Trail α) (checkpoint : Nat) : Except Fault (List α × Trail α) :=
  if checkpoint < t.depth then .ok (dropLevels (t.depth - checkpoint) t.current t.earlier)
  else .error .trailCheckpointAhead

@[simp] theorem toList_push (t : Trail α) (entry : α) :
    (t.push entry).toList = t.toList ++ [entry] := by
  simp [push, toList]

@[simp] theorem toList_checkpoint (t : Trail α) : t.checkpoint.toList = t.toList := by
  simp [checkpoint, toList]

@[simp] theorem depth_push (t : Trail α) (entry : α) : (t.push entry).depth = t.depth := rfl

@[simp] theorem depth_checkpoint (t : Trail α) : t.checkpoint.depth = t.depth + 1 := by
  simp [checkpoint, depth]

theorem length_toList (t : Trail α) : t.toList.length = t.size := by
  simp [toList, size, Nat.add_comm]

theorem undoTo_eq_error_iff {t : Trail α} {checkpoint : Nat} {cause : Fault} :
    t.undoTo checkpoint = .error cause ↔ t.depth ≤ checkpoint ∧ cause = .trailCheckpointAhead := by
  unfold undoTo
  split
  · rename_i below
    exact ⟨nofun, fun h => absurd below (Nat.not_lt.2 h.1)⟩
  · rename_i ahead
    constructor
    · intro h
      cases h
      exact ⟨Nat.not_lt.1 ahead, rfl⟩
    · rintro ⟨-, rfl⟩
      rfl

theorem dropLevels_toList (n : Nat) (current : List α) (earlier : List (List α)) :
    (dropLevels n current earlier).2.toList ++ (dropLevels n current earlier).1.reverse =
      toList ⟨current, earlier⟩ := by
  induction n generalizing current earlier with
  | zero => simp [dropLevels, toList]
  | succ n ih =>
    cases earlier with
    | nil => simp [dropLevels, toList]
    | cons below earlier =>
      have split := ih below earlier
      simp only [dropLevels, toList, List.reverse_append, List.flatten_cons] at split ⊢
      rw [← List.append_assoc, split]

theorem dropLevels_depth (n : Nat) (current : List α) (earlier : List (List α)) :
    (dropLevels n current earlier).2.depth = earlier.length - n := by
  induction n generalizing current earlier with
  | zero => rfl
  | succ n ih => cases earlier <;> simp [dropLevels, depth] at ih ⊢; exact ih _ _

theorem undoTo_depth {t rest : Trail α} {checkpoint : Nat} {popped : List α}
    (h : t.undoTo checkpoint = .ok (popped, rest)) : rest.depth = checkpoint := by
  unfold undoTo at h
  split at h
  · have left := dropLevels_depth (t.depth - checkpoint) t.current t.earlier
    simp only [Except.ok.injEq] at h
    rw [h] at left
    simp only [depth] at *
    omega
  · simp at h

theorem undoTo_toList {t rest : Trail α} {checkpoint : Nat} {popped : List α}
    (h : t.undoTo checkpoint = .ok (popped, rest)) : rest.toList ++ popped.reverse = t.toList := by
  unfold undoTo at h
  split at h
  · have split := dropLevels_toList (t.depth - checkpoint) t.current t.earlier
    simp only [Except.ok.injEq] at h
    rw [h] at split
    exact split
  · simp at h

end Trail

end Scheduling
