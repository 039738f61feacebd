import Scheduling.Proofs.Restriction

/-!
# Computations that do not fault

A propagation may end with an inconsistency, but it must not fault: no key is out of range and no
number leaves its width. That a computation completes is shown step by step. A step that ends with
an inconsistency ends the whole computation, so that the steps after it may rely on what holds if it
succeeds.

Results:
* `Propagation.completes_bind`, `Propagation.completes_when`, `Propagation.completes_forM`: steps
  one after the other.
* `Propagation.completes_update`: an update of a known interval completes.
* `Propagation.exec_update_of_keeps`: an update that removes no value does nothing.
* `Store.Shrinks`: a later store with smaller domains.
* `Propagation.completes_restrict`: a variable is restricted to any range whatever.
-/

namespace Scheduling

namespace Propagation

variable {α β : Type} {s : Store}

/-- The computation does not fault, and if it succeeds, then with an answer and a store as
described. -/
def Completes (x : Propagation α) (s : Store) (Q : α → Store → Prop) : Prop :=
  ∃ r s', x.exec s = .ok (r, s') ∧ ∀ a, r = .ok a → Q a s'

theorem Completes.weaken {x : Propagation α} {Q R : α → Store → Prop} (h : Completes x s Q)
    (le : ∀ a s', Q a s' → R a s') : Completes x s R := by
  obtain ⟨r, s', ran, q⟩ := h
  exact ⟨r, s', ran, fun a success => le a s' (q a success)⟩

theorem completes_pure {a : α} {Q : α → Store → Prop} (q : Q a s) : Completes (pure a) s Q :=
  ⟨.ok a, s, rfl, by rintro _ ⟨⟩; exact q⟩

theorem completes_throw {cause : Inconsistency} {Q : α → Store → Prop} :
    Completes (throw cause) s Q :=
  ⟨_, s, rfl, by rintro _ ⟨⟩⟩

theorem completes_bind {x : Propagation α} {f : α → Propagation β} {Q : α → Store → Prop}
    {R : β → Store → Prop} (h : Completes x s Q) (h' : ∀ a s', Q a s' → Completes (f a) s' R) :
    Completes (x >>= f) s R := by
  obtain ⟨cause | a, s', ran, q⟩ := h
  · exact ⟨.error cause, s', exec_bind_eq_ok_iff.2 (.inr ⟨cause, ran, rfl⟩), by rintro _ ⟨⟩⟩
  · obtain ⟨r, s'', ran', q'⟩ := h' a s' (q a rfl)
    exact ⟨r, s'', exec_bind_eq_ok_iff.2 (.inl ⟨a, s', ran, ran'⟩), q'⟩

theorem completes_inspect_bind {read : Domains → Except Fault α} {f : α → Propagation β} {a : α}
    {R : β → Store → Prop} (known : read s.domains = .ok a) (h : Completes (f a) s R) :
    Completes (inspect read >>= f) s R := by
  obtain ⟨r, s', ran, q⟩ := h
  exact ⟨r, s', exec_inspect_bind_eq_ok_iff.2 ⟨a, known, ran⟩, q⟩

theorem completes_liftM_bind {x : Except Fault α} {f : α → Propagation β} {a : α}
    {R : β → Store → Prop} (known : x = .ok a) (h : Completes (f a) s R) :
    Completes (liftM x >>= f) s R := by
  obtain ⟨r, s', ran, q⟩ := h
  exact ⟨r, s', exec_liftM_bind_eq_ok_iff.2 ⟨a, known, ran⟩, q⟩

/-- A step that is taken on a condition, with what follows it. -/
theorem completes_when {c : Prop} [Decidable c] {x : Propagation Unit} {f : Unit → Propagation β}
    {Q : Store → Prop} {R : β → Store → Prop} (h : c → Completes x s fun _ s' => Q s')
    (skip : ¬ c → Q s) (h' : ∀ s', Q s' → Completes (f ()) s' R) :
    Completes (if c then x >>= f else f ()) s R := by
  split
  · rename_i holds
    exact completes_bind (h holds) fun _ s' => h' s'
  · rename_i idle
    exact h' s (skip idle)

theorem completes_say {m : Message} {Q : Unit → Store → Prop} (q : Q () (s.say m)) :
    Completes (say m) s Q :=
  ⟨.ok (), s.say m, rfl, fun _ _ => q⟩

theorem completes_writeCell {cell : CellId} {value : Int} {Q : Unit → Store → Prop}
    (inside : cell.index < s.cells.values.size)
    (q : ∀ cells, s.cells.assign cell value = .ok cells → Q () { s with cells }) :
    Completes (writeCell cell value) s Q := by
  obtain ⟨a, s', ran, after⟩ := returns_writeCell inside q
  exact ⟨.ok a, s', ran, by rintro _ ⟨⟩; exact after⟩

/-- A change completes if it can be computed. -/
theorem completes_change {write : Domains → Except Fault (Option Domains)}
    {left : Option Domains} {Q : Unit → Store → Prop} (computed : write s.domains = .ok left)
    (q : ∀ d, left = some d → Q () { s with domains := d }) : Completes (change write) s Q := by
  have ran := exec_change write s
  rw [computed] at ran
  cases left with
  | none => exact ⟨_, s, ran, by rintro _ ⟨⟩⟩
  | some d => exact ⟨_, _, ran, fun _ _ => q d rfl⟩

/-- A loop completes if every round completes and keeps what it needs. -/
theorem completes_forM {l : List α} {f : α → Propagation PUnit} {I : Store → Prop} (start : I s)
    (round : ∀ a ∈ l, ∀ s, I s → Completes (f a) s fun _ s' => I s') :
    Completes (l.forM f) s fun _ s' => I s' := by
  induction l generalizing s with
  | nil => exact completes_pure start
  | cons a l ih =>
    exact completes_bind (round a List.mem_cons_self s start) fun _ s' next =>
      ih next fun b mem => round b (List.mem_cons_of_mem _ mem)

/-! ## Updates of an interval -/

variable {i : IntervalId} {v : Interval}

/-- An update of a known interval completes. It writes this row and no other one. -/
theorem completes_update (row : s.domains.interval i = .ok v) (u : Update)
    {Q : Unit → Store → Prop}
    (q : ∀ w d, v.update? u = some w → s.domains.update i u = .ok (some d) →
      Q () { s with domains := d }) : Completes (update i u) s Q := by
  cases updated : v.update? u with
  | none =>
    have refused : s.domains.update i u = .ok none := by
      simp only [Domains.update, row, updated, bind, Except.bind, pure, Except.pure]
    exact completes_change refused (by rintro _ ⟨⟩)
  | some w =>
    obtain ⟨d, wrote⟩ : ∃ d, s.domains.update i u = .ok (some d) := by
      simp only [Domains.update, row, updated, bind, Except.bind]
      split <;> exact ⟨_, rfl⟩
    refine completes_change wrote ?_
    rintro _ ⟨⟩
    exact q w d updated wrote

/-- An update that removes no value does nothing. -/
theorem exec_update_of_keeps (row : s.domains.interval i = .ok v) (wellFormed : v.WellFormed)
    {u : Update} (keeps : ∀ value, v.Admits value → u.Keeps value) :
    (update i u).exec s = .ok (.ok (), s) := by
  rw [exec_update row]
  cases updated : v.update? u with
  | none =>
    obtain ⟨value, admits⟩ := wellFormed.exists_admits
    exact absurd (keeps value admits)
      (Interval.not_keeps_of_update?_eq_none wellFormed updated admits)
  | some w => simp [Interval.eq_of_update? wellFormed updated keeps]

end Propagation

/-! ## Restricting variables -/

/-- A later store with smaller domains, in which no cell was written. -/
structure Store.Shrinks (s s' : Store) : Prop where
  wellFormed : s'.domains.WellFormed
  narrows : s.domains.Narrows s'.domains
  cells : s'.cells = s.cells

namespace Store.Shrinks

variable {s s' : Store}

theorem refl (wellFormed : s.domains.WellFormed) : s.Shrinks s := ⟨wellFormed, .refl _, rfl⟩

theorem trans {s'' : Store} (h : s.Shrinks s') (h' : s'.Shrinks s'') : s.Shrinks s'' :=
  ⟨h'.wellFormed, h.narrows.trans h'.narrows, h'.cells.trans h.cells⟩

theorem say (h : s.Shrinks s') (m : Message) : s.Shrinks (s'.say m) :=
  ⟨h.wellFormed, h.narrows, h.cells⟩

/-- A write of a domain. -/
theorem write (h : s.Shrinks s') (decision : Decision) {d : Domains}
    (wrote : decision.write s'.domains = .ok (some d)) : s.Shrinks { s' with domains := d } := by
  obtain ⟨wellFormed, evolves⟩ := decision.evolves_of_write h.wellFormed wrote
  exact ⟨wellFormed, h.narrows.trans evolves.narrows, h.cells⟩

end Store.Shrinks

namespace Propagation

variable {s s₀ : Store} (h : s₀.Shrinks s)
include h

theorem completes_update_of_shrinks {i : IntervalId} {v : Interval}
    (row : s₀.domains.interval i = .ok v) (u : Update) :
    Completes (update i u) s fun _ s' => s₀.Shrinks s' := by
  obtain ⟨w, row', -⟩ := h.narrows.interval i v row
  exact completes_update row' u fun _ _ _ wrote => h.write (.update i u) wrote

/-- A variable whose bounds can be computed is restricted to any range whatever. -/
theorem completes_restrict {v : Variable} {low high : Int}
    (lower : v.lower s.domains = .ok low) (upper : v.upper s.domains = .ok high) (range : Load) :
    Completes (restrict v range) s fun _ s' => s₀.Shrinks s' := by
  obtain ⟨row, known⟩ := Variable.exists_row_of_bound lower
  obtain ⟨result, s', ran, only, -⟩ :=
    filters_restrict known (h.wellFormed.integer _ row known) lower upper range
  have performs : Performs [] (restrict v range) := TimeTable.performs_restrict v range
  have evolves := performs.evolves s result s' h.wellFormed ran
  exact ⟨result, s', ran, fun _ _ =>
    h.trans ⟨evolves.wellFormed, evolves.domains.narrows, only.cells⟩⟩

end Propagation

end Scheduling
