import Scheduling.Proofs.Disjunctive.Rest

/-!
# What a pass over the timeline does to the rows

What the filter finds about a task concerns the row of its interval only. Finding it twice comes to
the same as finding it once, so that it does not matter in which order the findings about the tasks
are applied, nor whether an interval is listed several times.

Results:
* `Interval.Obeys`: a row that an update leaves as it is.
* `Propagation.Rewrites`: a computation that changes the row of one interval.
* `Propagation.Rewritten`, `Propagation.exists_forM`: a list of such computations.
* `Machine.applied`: the row after what the filter found about a task; `Machine.rewrites_apply`.
* `Machine.Pass`, `Machine.exists_pass`: the ways in which a pass can end.
-/

namespace Scheduling

open Propagation

/-! ## Updates that ask for nothing -/

theorem Bounds.Settled.propagate_eq {b : Bounds} (h : b.Settled) : b.propagate = (true, b) := by
  obtain ⟨n, enough⟩ : ∃ n, rounds = n + 1 := ⟨2 ^ 192 - 1, by simp [rounds]⟩
  have nonempty : b.isEmpty = false := isEmpty_eq_false_iff.2 ⟨h.start_le, h.end_le, h.length_le⟩
  have same : b.derived = b := by
    obtain ⟨h1, h2, h3, h4, h5, h6, h7, h8, h9, h10, h11, h12⟩ := h
    obtain ⟨_, _, _, _, _, _⟩ := b
    simp only [derived, mk.injEq] at *
    omega
  unfold propagate
  rw [enough, settle, nonempty, narrow_eq_derived h.withinHorizon, same]
  simp

namespace Interval

/-- The bound is as tight as the value asks for, or the interval is absent. -/
def Obeys (v : Interval) (which : Bound) (value : Int) : Prop :=
  v.isAbsent = true ∨ v.toBounds.tighten which value = v.toBounds

variable {v w : Interval} {which : Bound} {value : Int}

theorem Obeys.mono (h : v.Obeys which value) (narrows : v.Narrows w) : w.Obeys which value := by
  refine h.imp narrows.isAbsent fun same => ?_
  obtain ⟨h1, h2, h3, h4, h5, h6⟩ := narrows.tightens
  obtain ⟨⟨_, _, _, _, _, _⟩, _⟩ := v
  obtain ⟨⟨_, _, _, _, _, _⟩, _⟩ := w
  cases which <;> simp only [Bounds.tighten, Bounds.mk.injEq, and_true, true_and] at * <;> omega

/-- Where the bound has been moved, nothing is left to ask for. -/
theorem obeys_of_update? (h : v.WellFormed) (updated : v.update? (.bound which value) = some w) :
    w.Obeys which value := by
  cases there : w.isAbsent with
  | true => exact .inl there
  | false =>
    right
    obtain ⟨h1, h2, h3, h4, h5, h6⟩ := tightens_of_update? h updated there
    obtain ⟨⟨_, _, _, _, _, _⟩, _⟩ := w
    cases which <;> simp only [Bounds.tighten, Bounds.mk.injEq, and_true, true_and] at * <;> omega

theorem Obeys.update?_eq (h : v.WellFormed) (obeys : v.Obeys which value) :
    v.update? (.bound which value) = some v := by
  rcases obeys with absent | same
  · exact update?_of_isAbsent absent (by simp)
  · have settled : (v.toBounds.tighten which value).propagate = (true, v.toBounds) := by
      rw [same, Bounds.Settled.propagate_eq h]
    cases there : v.isAbsent with
    | true => exact update?_of_isAbsent there (by simp)
    | false => rw [update?_bound there settled, if_pos rfl]

section Conditional

variable {c : Prop} [Decidable c]

/-- Where the bound has been moved on a condition, nothing is left to ask for on that condition. -/
theorem obeys_of_update?_if (h : v.WellFormed)
    (updated : (if c then v.update? (.bound which value) else some v) = some w) :
    w.WellFormed ∧ v.Narrows w ∧ (c → w.Obeys which value) := by
  split at updated
  · obtain ⟨settled, narrows⟩ := narrows_of_update? h updated
    exact ⟨settled, narrows, fun _ => obeys_of_update? h updated⟩
  · cases updated
    exact ⟨h, .refl _, fun holds => absurd holds ‹_›⟩

theorem update?_if_eq (h : v.WellFormed) (obeys : c → v.Obeys which value) :
    (if c then v.update? (.bound which value) else some v) = some v := by
  split
  · exact (obeys ‹_›).update?_eq h
  · rfl

end Conditional

/-- An interval that need not be present has a row left after any update but to presence. -/
theorem exists_update?_of_not_isPresent (open_ : v.isPresent = false) {u : Update}
    (u_ne : u ≠ .present) : ∃ w, v.update? u = some w ∧ w.isPresent = false := by
  cases there : v.isAbsent with
  | true => exact ⟨v, update?_of_isAbsent there u_ne, open_⟩
  | false =>
    cases u with
    | present => exact absurd rfl u_ne
    | absent => exact ⟨_, by rw [update?_absent, open_]; rfl, rfl⟩
    | bound which value =>
      cases found : (v.toBounds.tighten which value).propagate with
      | mk consistent c =>
        rw [update?_bound there found, open_]
        cases consistent with
        | true => exact ⟨_, rfl, open_⟩
        | false => exact ⟨_, rfl, rfl⟩

end Interval

/-! ## Computations on one row -/

namespace Propagation

/-- The computation changes nothing but the row of an interval, from the given one to the result, or
fails because none is left. -/
def Rewrites (x : Propagation Unit) (i : IntervalId) (v : Interval) : Option Interval → Prop
  | none => ∀ s, s.domains.interval i = .ok v → ∃ s', x.exec s = .ok (.error .emptyDomain, s')
  | some w => ∀ s, s.domains.interval i = .ok v → ∃ s', x.exec s = .ok (.ok (), s') ∧
      ∀ j, s'.domains.interval j = if i = j then .ok w else s.domains.interval j

variable {i : IntervalId} {v : Interval} {x : Propagation Unit} {f : Unit → Propagation Unit}
  {r : Option Interval}

theorem rewrites_pure : Rewrites (pure ()) i v (some v) := by
  intro s row
  refine ⟨s, rfl, fun j => ?_⟩
  split
  · rename_i same
    rw [← same, row]
  · rfl

theorem rewrites_update (u : Update) : Rewrites (update i u) i v (v.update? u) := by
  cases after : v.update? u with
  | none =>
    intro s row
    refine ⟨s, ?_⟩
    rw [update, exec_change]
    simp only [Domains.update, row, after, bind, Except.bind, pure, Except.pure, Except.map]
  | some w =>
    intro s row
    obtain ⟨d, updated⟩ : ∃ d, s.domains.update i u = .ok (some d) := by
      simp only [Domains.update, row, after, bind, Except.bind]
      split <;> exact ⟨_, rfl⟩
    obtain ⟨old, new, row', after', rows, -⟩ := Domains.interval_of_update updated
    rw [row] at row'
    cases row'
    rw [after] at after'
    cases after'
    exact ⟨_, exec_change_eq_ok_iff.2 ⟨d, updated, rfl⟩, rows⟩

theorem rewrites_bind {g : Interval → Option Interval} (h : Rewrites x i v r)
    (h' : ∀ w, Rewrites (f ()) i w (g w)) : Rewrites (x >>= f) i v (r.bind g) := by
  cases r with
  | none =>
    intro s row
    obtain ⟨s', ran⟩ := h s row
    exact ⟨s', exec_bind_eq_ok_iff.2 (.inr ⟨_, ran, rfl⟩)⟩
  | some w =>
    have rest := h' w
    show Rewrites (x >>= f) i v (g w)
    cases last : g w with
    | none =>
      rw [last] at rest
      intro s row
      obtain ⟨s', ran, rows⟩ := h s row
      obtain ⟨s'', ran'⟩ := rest s' (by rw [rows, if_pos rfl])
      exact ⟨s'', exec_bind_eq_ok_iff.2 (.inl ⟨(), s', ran, ran'⟩)⟩
    | some u =>
      rw [last] at rest
      intro s row
      obtain ⟨s', ran, rows⟩ := h s row
      obtain ⟨s'', ran', rows'⟩ := rest s' (by rw [rows, if_pos rfl])
      refine ⟨s'', exec_bind_eq_ok_iff.2 (.inl ⟨(), s', ran, ran'⟩), fun j => ?_⟩
      rw [rows', rows]
      split <;> rfl

/-- A step that is taken on a condition, with what follows it. -/
theorem rewrites_when {c : Prop} [Decidable c] {g : Interval → Option Interval}
    (h : Rewrites x i v r) (h' : ∀ w, Rewrites (f ()) i w (g w)) :
    Rewrites (if c then x >>= f else f ()) i v ((if c then r else some v).bind g) := by
  split
  · exact rewrites_bind h h'
  · exact h' v

theorem rewrites_interval_bind {f : Interval → Propagation Unit} (h : Rewrites (f v) i v r) :
    Rewrites (interval i >>= f) i v r := by
  have skips (s : Store) (row : s.domains.interval i = .ok v) :
      (interval i >>= f).exec s = (f v).exec s := by
    rw [exec_bind, interval, exec_inspect, row]
    rfl
  cases r with
  | none =>
    intro s row
    rw [skips s row]
    exact h s row
  | some w =>
    intro s row
    rw [skips s row]
    exact h s row

theorem rewrites_say_bind {m : Message} (h : Rewrites (f ()) i v r) :
    Rewrites (say m >>= f) i v r := by
  have skips (s : Store) : (say m >>= f).exec s = (f ()).exec (s.say m) := by
    rw [exec_bind]
    rfl
  cases r with
  | none =>
    intro s row
    rw [skips]
    exact h (s.say m) row
  | some w =>
    intro s row
    rw [skips]
    exact h (s.say m) row

section Loop

variable {κ : Type} {place : κ → IntervalId} {g : κ → Interval → Option Interval}

/-- Every row that is listed is changed in its way, and no other. -/
structure Rewritten (place : κ → IntervalId) (g : κ → Interval → Option Interval) (ks : List κ)
    (d d' : Domains) : Prop where
  rows : ∀ k ∈ ks, ∃ v w, d.interval (place k) = .ok v ∧ g k v = some w ∧
    d'.interval (place k) = .ok w
  others : ∀ i, (∀ k ∈ ks, place k ≠ i) → d'.interval i = d.interval i

variable (alike : ∀ k l, place k = place l → g k = g l) {d d₁ d' : Domains} {k : κ} {v w : Interval}
  {ks : List κ} (row : d.interval (place k) = .ok v) (after : g k v = some w)
  (settled : g k w = some w)
  (rows : ∀ j, d₁.interval j = if place k = j then .ok w else d.interval j)
include alike settled rows

omit row after in
/-- What has been done to a row cannot fail when it is done again. -/
theorem interval_eq_of_none {l : κ} {u : Interval} (row' : d₁.interval (place l) = .ok u)
    (empty : g l u = none) : d.interval (place l) = .ok u := by
  rw [rows] at row'
  split at row'
  · rename_i same
    cases row'
    rw [← alike k l same, settled] at empty
    cases empty
  · exact row'

include row after in
/-- One row first, and then the listed ones. -/
theorem Rewritten.cons (h : Rewritten place g ks d₁ d') : Rewritten place g (k :: ks) d d' where
  rows l mem := by
    have here : d₁.interval (place k) = .ok w := by rw [rows, if_pos rfl]
    -- If the first row is listed again, it is left as it is.
    have last : d'.interval (place k) = .ok w := by
      by_cases later : ∃ l ∈ ks, place k = place l
      · obtain ⟨l, mem, same⟩ := later
        obtain ⟨u, u', row', after', kept⟩ := h.rows l mem
        rw [← same, here] at row'
        cases row'
        rw [← alike k l same, settled] at after'
        cases after'
        rw [same, kept]
      · push Not at later
        rw [h.others _ fun l mem eq => later l mem eq.symm, here]
    by_cases same : place k = place l
    · exact ⟨v, w, same ▸ row, alike k l same ▸ after, same ▸ last⟩
    · rcases List.mem_cons.1 mem with rfl | mem
      · exact absurd rfl same
      · obtain ⟨u, u', row', after', kept⟩ := h.rows l mem
        rw [rows, if_neg same] at row'
        exact ⟨u, u', row', after', kept⟩
  others i out := by
    rw [h.others i fun l mem => out l (List.mem_cons_of_mem _ mem), rows,
      if_neg (out k List.mem_cons_self)]

end Loop

/-- Computations that change one row each, those on the same row in the same way, which twice comes
to the same as once: together they change every row in its way, or some of them fails. -/
theorem exists_forM {κ : Type} {f : κ → Propagation Unit} {place : κ → IntervalId}
    {g : κ → Interval → Option Interval} (rewrites : ∀ k v, Rewrites (f k) (place k) v (g k v))
    (performs : ∀ k, Performs [] (f k))
    (again : ∀ k v w, v.WellFormed → g k v = some w → g k w = some w)
    (alike : ∀ k l, place k = place l → g k = g l) (ks : List κ) {s : Store}
    (wellFormed : s.domains.WellFormed)
    (known : ∀ k ∈ ks, ∃ v, s.domains.interval (place k) = .ok v) :
    (∃ s', (ks.forM f).exec s = .ok (.error .emptyDomain, s') ∧
        ∃ k ∈ ks, ∃ v, s.domains.interval (place k) = .ok v ∧ g k v = none) ∨
      ∃ s', (ks.forM f).exec s = .ok (.ok (), s') ∧
        Rewritten place g ks s.domains s'.domains := by
  induction ks generalizing s with
  | nil => exact .inr ⟨s, rfl, by simp, fun _ _ => rfl⟩
  | cons k ks ih =>
    obtain ⟨v, row⟩ := known k List.mem_cons_self
    have first := rewrites k v
    cases after : g k v with
    | none =>
      rw [after] at first
      obtain ⟨s', ran⟩ := first s row
      exact .inl ⟨s', exec_bind_eq_ok_iff.2 (.inr ⟨_, ran, rfl⟩), k, List.mem_cons_self, v, row,
        after⟩
    | some w =>
      rw [after] at first
      obtain ⟨t, ran, rows⟩ := first s row
      have settled := again k v w (wellFormed.interval _ v row) after
      have known' : ∀ l ∈ ks, ∃ v, t.domains.interval (place l) = .ok v := by
        intro l mem
        rw [rows]
        split
        · exact ⟨w, rfl⟩
        · exact known l (List.mem_cons_of_mem _ mem)
      rcases ih ((performs k).evolves s _ t wellFormed ran).wellFormed known' with
        ⟨s', rest, l, mem, u, row', empty⟩ | ⟨s', rest, done⟩
      · exact .inl ⟨s', exec_bind_eq_ok_iff.2 (.inl ⟨(), t, ran, rest⟩), l,
          List.mem_cons_of_mem _ mem, u, interval_eq_of_none alike settled rows row' empty, empty⟩
      · exact .inr ⟨s', exec_bind_eq_ok_iff.2 (.inl ⟨(), t, ran, rest⟩),
          done.cons alike row after settled rows⟩

end Propagation

namespace Direction

/-- The update that raises the earliest start on the timeline. -/
def raising : Direction → Int → Update
  | forward, value => .bound .startMin (Width.w32.saturate value)
  | mirrored, value => .bound .endMax (Width.w32.saturate (-value))

/-- The update that lowers the latest end on the timeline. -/
def lowering : Direction → Int → Update
  | forward, value => .bound .endMax (Width.w32.saturate value)
  | mirrored, value => .bound .startMin (Width.w32.saturate (-value))

variable {dir : Direction} {value : Int}

theorem exists_raising_eq (dir : Direction) (value : Int) :
    ∃ which bound, dir.raising value = .bound which bound := by
  cases dir <;> exact ⟨_, _, rfl⟩

theorem exists_lowering_eq (dir : Direction) (value : Int) :
    ∃ which bound, dir.lowering value = .bound which bound := by
  cases dir <;> exact ⟨_, _, rfl⟩

/-- An interval that may still be placed can start no earlier than its start was raised to. -/
theorem le_latestStart_of_raising {v w : Interval} (wellFormed : v.WellFormed)
    (least : -horizon ≤ value) (most : value ≤ horizon)
    (raised : v.update? (dir.raising value) = some w) (there : w.isAbsent = false) :
    value ≤ dir.latestStart w.toBounds := by
  obtain ⟨settled, -⟩ := Interval.narrows_of_update? wellFormed raised
  have start_le := settled.start_le
  have end_le := settled.end_le
  have word (value : Int) (least : -horizon ≤ value) (most : value ≤ horizon) :
      Width.w32.saturate value = value := by
    simp only [horizon] at least most
    exact Width.saturate_eq_self (by simp only [Width.Holds, Width.least, Width.greatest]; omega)
  cases dir with
  | forward =>
    simp only [raising, word value least most] at raised
    have := (Interval.tightens_of_update? wellFormed raised there).startMin_le
    simp only [Bounds.tighten] at this
    simp only [latestStart]
    omega
  | mirrored =>
    simp only [raising, word (-value) (by omega) (by omega)] at raised
    have := (Interval.tightens_of_update? wellFormed raised there).le_endMax
    simp only [Bounds.tighten] at this
    simp only [latestStart]
    omega

end Direction

namespace Machine

/-! ## What the filter found about a task -/

/-- The row of an interval after what the filter found about its task; `none` if none is left. -/
def applied (dir : Direction) (x : MachineTask) (startMin endMax : Int) (v : Interval) :
    Option Interval :=
  if startMin > x.startMin && x.isOptional && startMin > dir.latestStart v.toBounds then
    v.update? .absent
  else
    (if startMin > x.startMin then v.update? (dir.raising startMin) else some v).bind fun w =>
      if !x.isOptional && endMax < x.endMax then w.update? (dir.lowering endMax) else some w

variable {dir : Direction} {x : MachineTask} {startMin endMax : Int} {v w : Interval}

theorem rewrites_apply : Rewrites (apply dir x startMin endMax) x.interval v
    (applied dir x startMin endMax v) := by
  have raise (v : Interval) : Rewrites (dir.raiseStart x.interval startMin) x.interval v
      (v.update? (dir.raising startMin)) := by
    cases dir <;> exact rewrites_update _
  have lower (v : Interval) : Rewrites (dir.lowerEnd x.interval endMax) x.interval v
      (v.update? (dir.lowering endMax)) := by
    cases dir <;> exact rewrites_update _
  have last (w : Interval) : Rewrites
      (if !x.isOptional && endMax < x.endMax then dir.lowerEnd x.interval endMax else pure ())
      x.interval w
      (if !x.isOptional && endMax < x.endMax then w.update? (dir.lowering endMax) else some w) := by
    split
    · exact lower w
    · exact rewrites_pure
  refine rewrites_interval_bind ?_
  unfold applied
  split
  · exact rewrites_say_bind (rewrites_update _)
  · exact rewrites_when (raise v) last

theorem applied_of_isAbsent (absent : v.isAbsent = true) :
    applied dir x startMin endMax v = some v := by
  obtain ⟨which, bound, raising⟩ := dir.exists_raising_eq startMin
  obtain ⟨which', bound', lowering⟩ := dir.exists_lowering_eq endMax
  have stays {u : Update} (u_ne : u ≠ .present) := Interval.update?_of_isAbsent absent u_ne
  unfold applied
  rw [raising, lowering, stays (by simp), stays (by simp)]
  simp [stays]

/-- The filter has found nothing about a task. -/
theorem applied_self : applied dir x x.startMin x.endMax v = some v := by
  simp [applied]

/-- Of an interval that need not be present a row is left, and it still need not be. -/
theorem exists_applied_of_not_isPresent (optional : x.isOptional = true)
    (open_ : v.isPresent = false) :
    ∃ w, applied dir x startMin endMax v = some w ∧ w.isPresent = false := by
  obtain ⟨which, bound, raising⟩ := dir.exists_raising_eq startMin
  have left {u : Update} (u_ne : u ≠ .present) :=
    Interval.exists_update?_of_not_isPresent open_ u_ne
  unfold applied
  rw [raising, optional]
  split
  · exact left (by simp)
  · split
    · obtain ⟨w, updated, open'⟩ := left (u := .bound which bound) (by simp)
      exact ⟨w, by simp [updated], open'⟩
    · exact ⟨v, rfl, open_⟩

/-- Finding the same again changes nothing any more. -/
theorem applied_again (wellFormed : v.WellFormed) (least : -horizon ≤ startMin)
    (most : startMin ≤ horizon) (h : applied dir x startMin endMax v = some w) :
    applied dir x startMin endMax w = some w := by
  cases there : w.isAbsent with
  | true => exact applied_of_isAbsent there
  | false =>
    unfold applied at h
    split at h
    · rw [Interval.isAbsent_of_update?_absent h] at there
      cases there
    obtain ⟨u, raised, lowered⟩ := Option.bind_eq_some_iff.1 h
    -- An interval that is pushed out now would have been pushed out before.
    have inTime : ¬ (startMin > x.startMin && x.isOptional &&
        startMin > dir.latestStart w.toBounds) = true := by
      simp only [Bool.and_eq_true, decide_eq_true_eq, not_and]
      rintro ⟨more, optional⟩ late
      rw [if_pos more] at raised
      rw [optional] at lowered
      cases lowered
      have := Direction.le_latestStart_of_raising wellFormed least most raised there
      omega
    obtain ⟨which, bound, raising⟩ := dir.exists_raising_eq startMin
    obtain ⟨which', bound', lowering⟩ := dir.exists_lowering_eq endMax
    rw [raising] at raised
    rw [lowering] at lowered
    obtain ⟨wellFormed', -, obeys⟩ := Interval.obeys_of_update?_if wellFormed raised
    obtain ⟨wellFormed'', narrows, obeys'⟩ := Interval.obeys_of_update?_if wellFormed' lowered
    unfold applied
    rw [if_neg inTime, raising, lowering,
      Interval.update?_if_eq wellFormed'' fun more => (obeys more).mono narrows]
    exact Interval.update?_if_eq wellFormed'' obeys'

/-! ## The ways in which a pass can end -/

/-- The row of the interval of a task, after what the rounds of the filter have come to. -/
def finding (dir : Direction) {tasks : List MachineTask} (t : Tasks tasks.length)
    (k : Fin tasks.length) (v : Interval) : Option Interval :=
  applied dir (tasks.get k) (t.startMin.get k) (t.endMax.get k) v

/-- The ways in which a pass over the timeline can end, depending on what the rounds of the filter
come to: in a conflict; because no row is left for the interval of some task; or with a new row for
each of these intervals, and the others as they were. -/
inductive Pass (dir : Direction) (tasks : List MachineTask) (d d' : Domains) : Status → Prop
  | infeasible (settled : (toTasks tasks).Filters none) :
    Pass dir tasks d d' (.error (.conflict name))
  | emptied {t : Tasks tasks.length} (settled : (toTasks tasks).Filters (some t))
    {k : Fin tasks.length} {v : Interval} (row : d.interval (tasks.get k).interval = .ok v)
    (empty : finding dir t k v = none) :
    Pass dir tasks d d' (.error .emptyDomain)
  | done {t : Tasks tasks.length} (settled : (toTasks tasks).Filters (some t))
    (rows : ∀ k, ∃ v w, d.interval (tasks.get k).interval = .ok v ∧ finding dir t k v = some w ∧
      d'.interval (tasks.get k).interval = .ok w)
    (others : ∀ i, (∀ x ∈ tasks, x.interval ≠ i) → d'.interval i = d.interval i) :
    Pass dir tasks d d' (.ok ())

/-- Tasks of the same interval are the same. -/
theorem eq_of_reads {d : Domains} {y : MachineTask} (reads : Reads dir d x v)
    (reads' : Reads dir d y w) (same : x.interval = y.interval) : x = y := by
  have row := reads.row
  rw [same, reads'.row] at row
  cases row
  obtain ⟨_, _, _, _, _⟩ := x
  obtain ⟨_, _, _, _, _⟩ := y
  rw [MachineTask.mk.injEq]
  exact ⟨same, reads.isOptional.trans reads'.isOptional.symm,
    reads.startMin.trans reads'.startMin.symm, reads.duration.trans reads'.duration.symm,
    reads.endMax.trans reads'.endMax.symm⟩

/-- What the filter found can be applied: there is a row left for every task, or the application
fails. -/
theorem exists_forM_apply {tasks : List MachineTask} {t : Tasks tasks.length} {s : Store}
    (few : tasks.length < 2 ^ 30) (wellFormed : s.domains.WellFormed)
    (reads : ∀ x ∈ tasks, ∃ v, Reads dir s.domains x v)
    (settled : (toTasks tasks).Filters (some t)) : ∃ status s',
      ((List.finRange tasks.length).forM fun k =>
        apply dir (tasks.get k) (t.startMin.get k) (t.endMax.get k)).exec s = .ok (status, s') ∧
        Pass dir tasks s.domains s'.domains status := by
  have moderate := moderate_toTasks few wellFormed reads
  have bounded : t.Moderate :=
    settled.invariant (P := Tasks.Moderate) (fun _ moderate free => moderate.round free) moderate
  have alike (k l : Fin tasks.length) (same : (tasks.get k).interval = (tasks.get l).interval) :
      finding dir t k = finding dir t l := by
    obtain ⟨v, read⟩ := reads _ (List.get_mem tasks k)
    obtain ⟨w, read'⟩ := reads _ (List.get_mem tasks l)
    have same := eq_of_reads read read' same
    obtain ⟨starts, ends⟩ := settled.alike (k := k) (l := l)
      (by rw [toTasks_startMin, toTasks_startMin, same])
      (by rw [toTasks_duration, toTasks_duration, same])
      (by rw [toTasks_endMax, toTasks_endMax, same])
    funext v
    rw [finding, finding, same, starts, ends]
  rcases exists_forM (f := fun k => apply dir (tasks.get k) (t.startMin.get k) (t.endMax.get k))
      (g := finding dir t) (fun k v => rewrites_apply) (fun k => performs_apply _ _ _ _)
      (fun k v w wellFormed =>
        applied_again wellFormed (bounded.le_startMin k) (bounded.startMin_le k))
      alike (List.finRange tasks.length) wellFormed fun k _ => by
        obtain ⟨v, read⟩ := reads _ (List.get_mem tasks k)
        exact ⟨v, read.row⟩ with
    ⟨s', ran, k, -, v, row, empty⟩ | ⟨s', ran, rows, others⟩
  · exact ⟨_, s', ran, .emptied settled row empty⟩
  · refine ⟨_, s', ran, .done settled (fun k => rows k (List.mem_finRange k)) fun i out => ?_⟩
    exact others i fun k _ => out _ (List.get_mem tasks k)

/-- A pass over the timeline, once its tasks are listed and filtered. -/
theorem exec_filterOn {m : Machine} {s : Store} {tasks : List MachineTask}
    {verdict : Verdict} {filtered : Tasks tasks.length}
    (listed : (m.tasks dir).exec s = .ok (.ok tasks, s)) :
    (toTasks tasks).filter = .ok (verdict, filtered) → (m.filterOn dir).exec s =
      match verdict with
      | .unchanged => .ok (.ok (), s)
      | .infeasible => .ok (.error (.conflict name), s)
      | .changed => ((List.finRange tasks.length).forM fun k =>
          apply dir (tasks.get k) (filtered.startMin.get k) (filtered.endMax.get k)).exec s := by
  intro filtering
  rw [filterOn, exec_bind, listed]
  show exec (liftM (toTasks tasks).filter >>= _) s = _
  rw [filtering, exec_bind, exec_lift]
  cases verdict <;> rfl

/-- A pass over the timeline ends in one of the ways. -/
theorem exists_pass (dir : Direction) {is : List IntervalId} {m : Machine} {n : Nat} {s : Store}
    (few : is.length < 2 ^ 30) (wellFormed : s.domains.WellFormed)
    (fits : Fits is m s.domains s.cells.values n) : ∃ status s',
      (m.filterOn dir).exec s = .ok (status, s') ∧
        Pass dir ((m.active.elements.toList.take n).filterMap (m.taskOf dir s.domains)) s.domains
          s'.domains status := by
  obtain ⟨_, _, listed, same, eq⟩ := (returns_tasks fits : Returns (m.tasks dir) s _)
  rw [same, eq] at listed
  set tasks := (m.active.elements.toList.take n).filterMap (m.taskOf dir s.domains) with def_tasks
  have reads : ∀ x ∈ tasks, ∃ v, Reads dir s.domains x v := fun x mem => exists_reads mem
  have fewer : tasks.length < 2 ^ 30 := Nat.lt_of_le_of_lt fits.length_tasks_le few
  obtain ⟨r, settled, filtering⟩ :=
    Tasks.exists_filter_eq (moderate_toTasks fewer wellFormed reads).admissible.roomy
  cases r with
  | none => exact ⟨_, s, exec_filterOn listed filtering, .infeasible settled⟩
  | some t =>
    by_cases still : t = toTasks tasks
    · rw [still] at settled
      rw [still, Tasks.outcome_self] at filtering
      refine ⟨_, s, exec_filterOn listed filtering, .done settled (fun k => ?_) fun _ _ => rfl⟩
      obtain ⟨v, read⟩ := reads _ (List.get_mem tasks k)
      refine ⟨v, v, read.row, ?_, read.row⟩
      rw [finding, toTasks_startMin, toTasks_endMax, applied_self]
    · rw [show (toTasks tasks).outcome (some t) = (.changed, t) from
        Prod.ext (if_neg still) rfl] at filtering
      rw [exec_filterOn listed filtering]
      exact exists_forM_apply fewer wellFormed reads settled

end Machine

end Scheduling
