import Scheduling.Cumulative.Resource

/-!
# The span of the activities that still matter

The stored span grows from the activities that are not fixed by taking in the fixed ones that it
meets. A round over the fixed activities that changes nothing leaves none that is met but not taken
in, and every other round takes in a further one, so that as many rounds as activities are enough.

Results:
* `Span.contains_or_misses_closure`: every fixed activity lies inside the span or outside of it.
* `Span.closure_within`: the span stays within one that contains all activities.
* `Span.ofBounds_spec`: the same of the span that is stored.
-/

namespace Scheduling

namespace Span

variable {s s' t : Span} {b : Bounds} {fixed : List Bounds}

/-- The activity lies between the ends of the span. -/
def Contains (s : Span) (b : Bounds) : Prop := s.start ≤ b.startMin ∧ b.endMax ≤ s.stop

instance (s : Span) (b : Bounds) : Decidable (s.Contains b) :=
  inferInstanceAs (Decidable (_ ∧ _))

/-- The activity ends before the span or starts after it. -/
def Misses (s : Span) (b : Bounds) : Prop := b.endMax ≤ s.start ∨ s.stop ≤ b.startMin

/-- The first span is a part of the second one. -/
structure Within (s s' : Span) : Prop where
  start : s'.start ≤ s.start
  stop : s.stop ≤ s'.stop

theorem Within.refl (s : Span) : s.Within s := ⟨Int.le_refl _, Int.le_refl _⟩

theorem Within.trans (h : s.Within s') (h' : s'.Within t) : s.Within t :=
  ⟨Int.le_trans h'.start h.start, Int.le_trans h.stop h'.stop⟩

theorem Contains.mono (h : s.Contains b) (le : s.Within s') : s'.Contains b :=
  ⟨Int.le_trans le.start h.1, Int.le_trans h.2 le.stop⟩

theorem within_hull (s : Span) (b : Bounds) : s.Within (s.hull b) := by
  constructor <;> simp only [hull] <;> omega

theorem contains_hull (s : Span) (b : Bounds) : (s.hull b).Contains b := by
  constructor <;> simp only [hull] <;> omega

theorem hull_within (h : s.Within t) (contains : t.Contains b) : (s.hull b).Within t := by
  obtain ⟨h1, h2⟩ := h
  obtain ⟨c1, c2⟩ := contains
  constructor <;> simp only [hull] <;> omega

theorem within_absorb (s : Span) (b : Bounds) : s.Within (s.absorb b) := by
  unfold absorb
  split
  · exact within_hull s b
  · exact .refl s

theorem absorb_within (h : s.Within t) (contains : t.Contains b) : (s.absorb b).Within t := by
  unfold absorb
  split
  · exact hull_within h contains
  · exact h

/-- An activity that the span does not take in anew is inside or outside. -/
theorem contains_or_misses_of_absorb_eq (h : s.absorb b = s) : s.Contains b ∨ s.Misses b := by
  unfold absorb at h
  split at h
  · rw [← h]
    exact .inl (contains_hull s b)
  · rename_i apart
    right
    simp only [Bool.and_eq_true, decide_eq_true_eq] at apart
    unfold Misses
    omega

/-- An activity that changes the span was not inside before. -/
theorem not_contains_of_absorb_ne (h : s.absorb b ≠ s) :
    ¬ s.Contains b ∧ (s.absorb b).Contains b := by
  unfold absorb at h ⊢
  split at h
  · rename_i meets
    rw [if_pos meets]
    refine ⟨fun contains => h ?_, contains_hull s b⟩
    obtain ⟨c1, c2⟩ := contains
    obtain ⟨start, stop⟩ := s
    simp only [hull, mk.injEq]
    simp only at c1 c2
    omega
  · exact absurd rfl h

/-! ## Rounds -/

theorem within_foldl_absorb (fixed : List Bounds) (s : Span) :
    s.Within (fixed.foldl absorb s) := by
  induction fixed generalizing s with
  | nil => exact .refl s
  | cons b fixed ih => exact (within_absorb s b).trans (ih _)

theorem foldl_absorb_within (h : s.Within t) (contains : ∀ b ∈ fixed, t.Contains b) :
    (fixed.foldl absorb s).Within t := by
  induction fixed generalizing s with
  | nil => exact h
  | cons b fixed ih =>
    exact ih (absorb_within h (contains b List.mem_cons_self)) fun b mem =>
      contains b (List.mem_cons_of_mem _ mem)

/-- A round changes nothing, or it takes in an activity that was not inside. -/
theorem foldl_absorb_cases (fixed : List Bounds) (s : Span) :
    (fixed.foldl absorb s = s ∧ ∀ b ∈ fixed, s.absorb b = s) ∨
      ∃ b ∈ fixed, ¬ s.Contains b ∧ (fixed.foldl absorb s).Contains b := by
  induction fixed with
  | nil => exact .inl ⟨rfl, by simp⟩
  | cons b fixed ih =>
    rw [List.foldl_cons]
    by_cases same : s.absorb b = s
    · rw [same]
      rcases ih with ⟨eq, unchanged⟩ | ⟨c, mem, new, contains⟩
      · exact .inl ⟨eq, List.forall_mem_cons.2 ⟨same, unchanged⟩⟩
      · exact .inr ⟨c, List.mem_cons_of_mem _ mem, new, contains⟩
    · obtain ⟨new, contains⟩ := not_contains_of_absorb_ne same
      exact .inr ⟨b, List.mem_cons_self, new, contains.mono (within_foldl_absorb fixed _)⟩

/-- The number of activities that are not inside. -/
def missing (fixed : List Bounds) (s : Span) : Nat := fixed.countP fun b => !decide (s.Contains b)

theorem missing_lt {c : Bounds} (le : s.Within t) (mem : c ∈ fixed) (new : ¬ s.Contains c)
    (contains : t.Contains c) : missing fixed t < missing fixed s := by
  have fewer (l : List Bounds) : missing l t ≤ missing l s := by
    refine List.countP_mono_left fun b _ outside => ?_
    simp only [Bool.not_eq_true', decide_eq_false_iff_not] at outside ⊢
    exact fun inside => outside (inside.mono le)
  induction fixed with
  | nil => cases mem
  | cons b fixed ih =>
    have rest := fewer fixed
    simp only [missing, List.countP_cons] at rest ih ⊢
    rcases List.mem_cons.1 mem with rfl | mem
    · simp only [new, contains, decide_true, decide_false, Bool.not_true, Bool.not_false, if_true,
        Bool.false_eq_true, if_false]
      omega
    · have := ih mem
      by_cases inside : s.Contains b
      · simp only [inside, inside.mono le, decide_true, Bool.not_true, Bool.false_eq_true, if_false]
        omega
      · simp only [inside, decide_false, Bool.not_false, if_true]
        split <;> omega

theorem within_foldl_rounds (s : Span) (fixed rounds : List Bounds) :
    s.Within (rounds.foldl (fun s _ => fixed.foldl absorb s) s) := by
  induction rounds generalizing s with
  | nil => exact .refl s
  | cons _ rounds ih => exact (within_foldl_absorb fixed s).trans (ih _)

theorem foldl_rounds_within {rounds : List Bounds} (h : s.Within t)
    (contains : ∀ b ∈ fixed, t.Contains b) :
    (rounds.foldl (fun s _ => fixed.foldl absorb s) s).Within t := by
  induction rounds generalizing s with
  | nil => exact h
  | cons _ rounds ih => exact ih (foldl_absorb_within h contains)

/-- After a round that changes nothing, the others change nothing either. -/
theorem foldl_rounds_of_eq {rounds : List Bounds} (same : fixed.foldl absorb s = s) :
    rounds.foldl (fun s _ => fixed.foldl absorb s) s = s := by
  induction rounds with
  | nil => rfl
  | cons _ rounds ih => rw [List.foldl_cons, same, ih]

theorem contains_or_misses_of_rounds {rounds : List Bounds}
    (enough : missing fixed s ≤ rounds.length) : ∀ b ∈ fixed,
      (rounds.foldl (fun s _ => fixed.foldl absorb s) s).Contains b ∨
        (rounds.foldl (fun s _ => fixed.foldl absorb s) s).Misses b := by
  induction rounds generalizing s with
  | nil =>
    intro b mem
    have none := List.countP_eq_zero.1 (Nat.le_zero.1 enough) b mem
    simp only [Bool.not_eq_true, Bool.not_eq_false', decide_eq_true_eq] at none
    exact .inl none
  | cons _ rounds ih =>
    rcases foldl_absorb_cases fixed s with ⟨same, unchanged⟩ | ⟨c, mem, new, contains⟩
    · intro b mem
      rw [foldl_rounds_of_eq same]
      exact contains_or_misses_of_absorb_eq (unchanged b mem)
    · have fewer := missing_lt (within_foldl_absorb fixed s) mem new contains
      rw [List.length_cons] at enough
      exact ih (show missing fixed (fixed.foldl absorb s) ≤ rounds.length by omega)

/-- Every fixed activity lies inside the span or outside of it. -/
theorem contains_or_misses_closure (s : Span) (fixed : List Bounds) :
    ∀ b ∈ fixed, (s.closure fixed).Contains b ∨ (s.closure fixed).Misses b :=
  contains_or_misses_of_rounds List.countP_le_length

theorem within_closure (s : Span) (fixed : List Bounds) : s.Within (s.closure fixed) :=
  within_foldl_rounds s fixed fixed

/-- The span stays within one that contains all activities. -/
theorem closure_within (h : s.Within t) (contains : ∀ b ∈ fixed, t.Contains b) :
    (s.closure fixed).Within t :=
  foldl_rounds_within h contains

/-! ## The stored span -/

theorem foldl_hull_spec (s t : Span) (bs : List ActivityBounds) :
    s.Within (bs.foldl (fun s b => s.hull b.toBounds) s) ∧
      (∀ b ∈ bs, (bs.foldl (fun s b => s.hull b.toBounds) s).Contains b.toBounds) ∧
      (s.Within t → (∀ b ∈ bs, t.Contains b.toBounds) →
        (bs.foldl (fun s b => s.hull b.toBounds) s).Within t) := by
  induction bs generalizing s with
  | nil => exact ⟨.refl s, by simp, fun h _ => h⟩
  | cons b bs ih =>
    obtain ⟨grows, contains, within⟩ := ih (s.hull b.toBounds)
    refine ⟨(within_hull s _).trans grows, List.forall_mem_cons.2 ⟨?_, contains⟩, fun h inside => ?_⟩
    · exact (contains_hull s _).mono grows
    · exact within (hull_within h (inside b List.mem_cons_self)) fun c mem =>
        inside c (List.mem_cons_of_mem _ mem)

/-- Activities that are not fixed lie inside the stored span, fixed ones inside or outside of it; and
it is not longer than needed. -/
theorem ofBounds_spec (bs : List ActivityBounds) :
    (∀ b ∈ bs, b.isFixed = false → (ofBounds bs).Contains b.toBounds) ∧
      (∀ b ∈ bs, b.isFixed = true →
        (ofBounds bs).Contains b.toBounds ∨ (ofBounds bs).Misses b.toBounds) ∧
      (none.Within t → (∀ b ∈ bs, t.Contains b.toBounds) → (ofBounds bs).Within t) := by
  obtain ⟨-, contains, within⟩ :=
    foldl_hull_spec none t (bs.filter fun b => !b.isFixed)
  refine ⟨fun b mem moving => ?_, fun b mem fixed => ?_, fun start inside => ?_⟩
  · exact (contains b (List.mem_filter.2 ⟨mem, by simp [moving]⟩)).mono (within_closure _ _)
  · exact contains_or_misses_closure _ _ _
      (List.mem_map_of_mem (List.mem_filter.2 ⟨mem, fixed⟩))
  · refine closure_within (within start fun b mem => inside b (List.mem_filter.1 mem).1) ?_
    intro b mem
    obtain ⟨c, member, rfl⟩ := List.mem_map.1 mem
    exact inside c (List.mem_filter.1 member).1

end Span

end Scheduling
