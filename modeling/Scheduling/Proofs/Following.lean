import Scheduling.Proofs.Scope

/-!
# Computations that follow others

A computation follows another one if it ends alike and leaves the same store, whatever else it looks
at on the way; only a difference that it computes may overflow. To show this it is enough to look at
the steps that one of them has and the other one lacks: those must change nothing. What they read in
between is known as long as only the row of one interval was touched.

Results:
* `Propagation.Follows.bind`: computations of which each step follows.
* `Propagation.Follows.seq`, `Propagation.Follows.when`: steps that change nothing.
* `Store.Filtered.bounds`, `Store.Filtered.bound`: what is untouched.
* `Propagation.exists_filtered`: moving a bound on a condition.
-/

namespace Scheduling

/-! ## Computations that follow others -/

namespace Propagation

variable {α β : Type} {wide : Prop} {s : Store}

/-- The second computation does what the first one does, or a difference overflows in it; this may
happen only if `wide` holds. -/
def Follows (wide : Prop) (x y : Propagation α) (s : Store) : Prop :=
  y.exec s = x.exec s ∨ wide ∧ y.exec s = .error .subtractionOverflow

theorem Follows.refl (x : Propagation α) (s : Store) : Follows wide x x s := .inl rfl

theorem Follows.bind {x y : Propagation α} {f g : α → Propagation β} (h : Follows wide x y s)
    (h' : ∀ a s', x.exec s = .ok (.ok a, s') → Follows wide (f a) (g a) s') :
    Follows wide (x >>= f) (y >>= g) s := by
  rcases h with same | ⟨possible, overflows⟩
  · rcases ran : x.exec s with fault | ⟨cause | a, s'⟩
    · exact .inl (by simp only [exec_bind, same, ran])
    · exact .inl (by simp only [exec_bind, same, ran])
    · simpa only [Follows, exec_bind, same, ran] using h' a s' ran
  · exact .inr ⟨possible, by simp only [exec_bind, overflows]⟩

theorem Follows.of_overflow {x : Propagation α} {difference : Except Fault β}
    {f : β → Propagation α} (possible : wide)
    (overflows : difference = .error .subtractionOverflow) :
    Follows wide x (liftM difference >>= f) s := by
  subst overflows
  exact .inr ⟨possible, rfl⟩

/-- Steps that change nothing, in front of what follows. -/
theorem Follows.seq {x : Propagation α} {y : Propagation Unit} {f : Unit → Propagation α}
    (h : Follows wide (pure ()) y s) (h' : Follows wide x (f ()) s) :
    Follows wide x (y >>= f) s := by
  rcases h with same | ⟨possible, overflows⟩
  · simpa only [Follows, exec_bind, same, exec_pure] using h'
  · exact .inr ⟨possible, by simp only [exec_bind, overflows]⟩

theorem Follows.when {c : Prop} [Decidable c] {x : Propagation α} {y : Propagation Unit}
    {f : Unit → Propagation α} (h : c → Follows wide (pure ()) y s)
    (h' : Follows wide x (f ()) s) : Follows wide x (if c then y >>= f else f ()) s := by
  split
  · rename_i holds
    exact (h holds).seq h'
  · exact h'

theorem Follows.inspect_bind {read : Domains → Except Fault β} {b : β} {x : Propagation α}
    {f : β → Propagation α} (known : read s.domains = .ok b) (h : Follows wide x (f b) s) :
    Follows wide x (inspect read >>= f) s := by
  have same : (inspect read >>= f).exec s = (f b).exec s := by
    simp only [exec_bind, exec_inspect, known, Except.map]
  simpa only [Follows, same] using h

theorem exec_when {c : Prop} [Decidable c] {x : Propagation Unit} {f : Unit → Propagation α} :
    (if c then x >>= f else f ()).exec s = ((if c then x else pure ()) >>= f).exec s := by
  split <;> rfl

end Propagation

/-! ## Changes of one interval -/

/-- Only the row of one interval changes, from `v` to `w`, and gets narrower. -/
structure Store.Filtered (i : IntervalId) (v : Interval) (s : Store) (w : Interval) (s' : Store) :
    Prop where
  wellFormed : s'.domains.WellFormed
  elsewhere : s.domains.AgreesOutside [.interval i] s'.domains
  row : s'.domains.interval i = .ok w
  narrows : v.Narrows w

namespace Store.Filtered

variable {i : IntervalId} {v w : Interval} {s s' : Store}

theorem refl (wellFormed : s.domains.WellFormed) (row : s.domains.interval i = .ok v) :
    s.Filtered i v v s :=
  ⟨wellFormed, .refl _ _, row, .refl v⟩

theorem trans {w' : Interval} {s'' : Store} (h : Store.Filtered i v s w s')
    (h' : Store.Filtered i w s' w' s'') : Store.Filtered i v s w' s'' :=
  ⟨h'.wellFormed, h.elsewhere.trans h'.elsewhere, h'.row, h.narrows.trans h'.narrows⟩

/-- What was captured of an activity on another interval stays. -/
theorem bounds (h : Store.Filtered i v s w s') {x : Activity} (other : x.interval ≠ i)
    {b : ActivityBounds} (known : x.bounds s.domains = .ok b) : x.bounds s'.domains = .ok b := by
  have agrees : s.domains.Agrees x.scope s'.domains := by
    refine ⟨fun y row _ found => ?_, fun j row mem found => ?_⟩
    · rw [h.elsewhere.integer y (by simp), found]
    · obtain rfl : j = x.interval := by simpa [Activity.scope] using mem
      rw [h.elsewhere.interval x.interval (by simpa using other), found]
  exact agrees.bounds (List.Subset.refl _) known

/-- The bounds of a variable stay. -/
theorem bound (h : Store.Filtered i v s w s') {x : Variable} {side : Side} {value : Int}
    (known : x.bound side s.domains = .ok value) : x.bound side s'.domains = .ok value := by
  have agrees : s.domains.Agrees [.integer x.base] s'.domains :=
    ⟨fun y row _ found => by rw [h.elsewhere.integer y (by simp), found],
      fun j row mem _ => by simp at mem⟩
  exact agrees.bound (by simp) known

end Store.Filtered

namespace Propagation

variable {s : Store} {i : IntervalId} {v : Interval}

/-- A bound that is moved on a condition filters the values of the interval, or fails. -/
theorem exists_filtered (wellFormed : s.domains.WellFormed) (row : s.domains.interval i = .ok v)
    (c : Prop) [Decidable c] (which : Bound) (value : Int) :
    ∃ status s' w, (if c then tighten i which value else pure ()).exec s = .ok (status, s') ∧
      s.Filtered i v w s' ∧ (status = .ok () → ∀ x, w.Admits x ↔
        v.Admits x ∧ (c → (Update.bound which value).Keeps x)) := by
  split
  · rename_i applies
    have rowWellFormed := wellFormed.interval i v row
    have ran := exec_change (·.update i (.bound which value)) s
    cases updated : v.update? (.bound which value) with
    | none =>
      rw [show s.domains.update i (.bound which value) = .ok none by
        simp only [Domains.update, row, updated, bind, Except.bind, pure, Except.pure]] at ran
      exact ⟨_, s, v, ran, .refl wellFormed row, by rintro ⟨⟩⟩
    | some w =>
      obtain ⟨d', wrote⟩ : ∃ d', s.domains.update i (.bound which value) = .ok (some d') := by
        simp only [Domains.update, row, updated, bind, Except.bind]
        split <;> exact ⟨_, rfl⟩
      obtain ⟨old, new, row', updated', rows, -⟩ := Domains.interval_of_update wrote
      obtain rfl : v = old := Except.ok.inj (row.symm.trans row')
      obtain rfl : w = new := Option.some.inj (updated.symm.trans updated')
      rw [wrote] at ran
      refine ⟨_, { s with domains := d' }, w, ran, ⟨(Domains.evolves_of_update wellFormed wrote).1,
        Domains.agreesOutside_of_update (by simp) wrote, (rows i).trans (if_pos rfl),
        (Interval.narrows_of_update? rowWellFormed updated).2⟩, fun _ x => ?_⟩
      have kept : w.Admits x ↔ _ := Interval.admits_of_update? rowWellFormed updated
      simpa [applies] using kept
  · rename_i idle
    exact ⟨_, s, v, exec_pure () s, .refl wellFormed row, fun _ x => by simp [idle]⟩

end Propagation

end Scheduling
