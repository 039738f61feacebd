import Scheduling.Proofs.Computation
import Scheduling.Proofs.Cumulative.Fixed

/-!
# Computations that depend on few rows

A propagator reads and writes the domains of the variables that it is about, and of no others. If it
changes none of their rows, it took no step that could change one, so that it does the same again
from every store in which these rows are the same, whatever the others have become.

Results:
* `Domains.Agrees`, `Domains.AgreesOutside`: the rows of some variables, or of all others, are the
  same.
* `Propagation.Rests`: the computation succeeds and changes nothing wherever the rows are the same.
* `Propagation.Local`: no row out of scope is changed, and a success that changes no row in scope
  makes the computation rest.
* `Propagation.local_bind`, `Propagation.local_update`, `Propagation.local_setBound`: the steps.
* `Propagation.rests_bind_iff`: two steps rest exactly if both do.
-/

namespace Scheduling

/-! ## Rows that are the same -/

theorem IntegerDomain.Narrows.antisymm {old new : IntegerDomain} (h : old.Narrows new)
    (h' : new.Narrows old) : new = old := by
  obtain ⟨lower, upper⟩ := h
  obtain ⟨lower', upper'⟩ := h'
  cases old
  cases new
  simp only [IntegerDomain.mk.injEq] at *
  omega

theorem Bounds.Tightens.antisymm {old new : Bounds} (h : old.Tightens new) (h' : new.Tightens old) :
    new = old := by
  obtain ⟨t1, t2, t3, t4, t5, t6⟩ := h
  obtain ⟨u1, u2, u3, u4, u5, u6⟩ := h'
  cases old
  cases new
  simp only [Bounds.mk.injEq] at *
  omega

theorem Interval.Narrows.antisymm {old new : Interval} (h : old.Narrows new)
    (h' : new.Narrows old) : new = old := by
  have bounds := h.tightens.antisymm h'.tightens
  obtain ⟨b, presence⟩ := old
  obtain ⟨b', presence'⟩ := new
  have same : presence' = presence := by
    rcases h.presence with optional | same
    · rcases h'.presence with optional' | same
      · exact optional'.trans optional.symm
      · exact same.symm
    · exact same
  simp only at bounds
  rw [bounds, same]

namespace Domains

/-- The variables in scope that exist have the same rows in the second domains. -/
structure Agrees (scope : List Watched) (d d' : Domains) : Prop where
  integer : ∀ x row, .integer x ∈ scope → d.integer x = .ok row → d'.integer x = .ok row
  interval : ∀ i row, .interval i ∈ scope → d.interval i = .ok row → d'.interval i = .ok row

namespace Agrees

variable {scope : List Watched} {a b c : Domains}

theorem refl (scope : List Watched) (d : Domains) : d.Agrees scope d :=
  ⟨fun _ _ _ found => found, fun _ _ _ found => found⟩

theorem trans (h : a.Agrees scope b) (h' : b.Agrees scope c) : a.Agrees scope c :=
  ⟨fun x row mem found => h'.integer x row mem (h.integer x row mem found),
    fun i row mem found => h'.interval i row mem (h.interval i row mem found)⟩

theorem of_eq {d d' : Domains} (integers : d'.integers = d.integers)
    (intervals : d'.intervals = d.intervals) : d.Agrees scope d' := by
  refine ⟨fun x row _ found => ?_, fun i row _ found => ?_⟩
  · rw [← found, Domains.integer, Domains.integer, integers]
  · rw [← found, Domains.interval, Domains.interval, intervals]

/-- Domains between two that agree, in the order in which rows get narrower, agree as well. -/
theorem between (h : a.Agrees scope c) (first : a.Narrows b) (second : b.Narrows c) :
    a.Agrees scope b := by
  refine ⟨fun x row mem found => ?_, fun i row mem found => ?_⟩
  · obtain ⟨row', found', narrows⟩ := first.integer x row found
    obtain ⟨row'', found'', narrows'⟩ := second.integer x row' found'
    rw [h.integer x row mem found] at found''
    cases found''
    rw [found', narrows.antisymm narrows']
  · obtain ⟨row', found', narrows⟩ := first.interval i row found
    obtain ⟨row'', found'', narrows'⟩ := second.interval i row' found'
    rw [h.interval i row mem found] at found''
    cases found''
    rw [found', narrows.antisymm narrows']

end Agrees

/-- What a variable can be is read off its own row. -/
theorem Agrees.bound {scope : List Watched} {d d' : Domains} (h : d.Agrees scope d') {v : Variable}
    (mem : .integer v.base ∈ scope) {side : Side} {value : Int} (known : v.bound side d = .ok value) :
    v.bound side d' = .ok value := by
  obtain ⟨row, found⟩ := Variable.exists_row_of_bound known
  rw [← known]
  exact Variable.bound_congr ((h.integer _ row mem found).trans found.symm) side

theorem Agrees.isFixed {scope : List Watched} {d d' : Domains} (h : d.Agrees scope d') {v : Variable}
    (mem : .integer v.base ∈ scope) {answer : Bool} (known : v.isFixed d = .ok answer) :
    v.isFixed d' = .ok answer := by
  obtain ⟨low, lower, rest⟩ := bind_eq_ok_iff.1 known
  obtain ⟨high, upper, answered⟩ := bind_eq_ok_iff.1 rest
  exact bind_eq_ok_iff.2 ⟨low, h.bound mem lower,
    bind_eq_ok_iff.2 ⟨high, h.bound mem upper, answered⟩⟩

/-- The variables out of scope have the same rows in the second domains. -/
structure AgreesOutside (scope : List Watched) (d d' : Domains) : Prop where
  integer : ∀ x, .integer x ∉ scope → d'.integer x = d.integer x
  interval : ∀ i, .interval i ∉ scope → d'.interval i = d.interval i

namespace AgreesOutside

variable {scope : List Watched} {a b c : Domains}

theorem refl (scope : List Watched) (d : Domains) : d.AgreesOutside scope d :=
  ⟨fun _ _ => rfl, fun _ _ => rfl⟩

theorem trans (h : a.AgreesOutside scope b) (h' : b.AgreesOutside scope c) :
    a.AgreesOutside scope c :=
  ⟨fun x out => (h'.integer x out).trans (h.integer x out),
    fun i out => (h'.interval i out).trans (h.interval i out)⟩

end AgreesOutside

end Domains

/-! ## Computations that rest -/

namespace Propagation

variable {α β : Type} {own : List CellId} {scope : List Watched} {d d' : Domains}

/-- From every store with the same rows in scope, and with the listed cells, the computation succeeds
with the result `a` and leaves the domains as they are. -/
def Rests (own : List CellId) (scope : List Watched) (d : Domains) (x : Propagation α) (a : α) :
    Prop :=
  ∀ s : Store, d.Agrees scope s.domains → (∀ cell ∈ own, cell.index < s.cells.values.size) →
    Returns x s fun b s' => b = a ∧ s'.domains = s.domains ∧
      s'.cells.values.size = s.cells.values.size

theorem Rests.mono {x : Propagation α} {a : α} (h : Rests own scope d x a)
    (agrees : d.Agrees scope d') : Rests own scope d' x a :=
  fun s same => h s (agrees.trans same)

theorem rests_pure (a : α) : Rests own scope d (pure a) a :=
  fun _ _ _ => returns_pure ⟨rfl, rfl, rfl⟩

theorem rests_bind {x : Propagation α} {f : α → Propagation β} {a : α} {b : β}
    (h : Rests own scope d x a) (h' : Rests own scope d (f a) b) :
    Rests own scope d (x >>= f) b := by
  intro s agrees cells
  refine returns_bind (h s agrees cells) ?_
  rintro _ s' ⟨rfl, domains, size⟩
  have next := h' s' (by rw [domains]; exact agrees) (by rw [size]; exact cells)
  rw [domains, size] at next
  exact next

theorem rests_forM {l : List α} {f : α → Propagation PUnit}
    (h : ∀ a ∈ l, Rests own scope d (f a) ⟨⟩) : Rests own scope d (l.forM f) ⟨⟩ := by
  induction l with
  | nil => exact rests_pure _
  | cons a l ih =>
    exact rests_bind (h a List.mem_cons_self) (ih fun b mem => h b (List.mem_cons_of_mem _ mem))

theorem rests_liftM {x : Except Fault α} {a : α} (h : x = .ok a) :
    Rests own scope d (liftM x : Propagation α) a :=
  fun _ _ _ => returns_liftM h ⟨rfl, rfl, rfl⟩

theorem rests_inspect {read : Domains → Except Fault α} {a : α}
    (h : ∀ d', d.Agrees scope d' → read d' = .ok a) : Rests own scope d (inspect read) a :=
  fun s agrees _ => returns_inspect (h s.domains agrees) ⟨rfl, rfl, rfl⟩

theorem rests_say (m : Message) : Rests own scope d (say m) () :=
  fun _ _ _ => returns_say ⟨rfl, rfl, rfl⟩

theorem rests_writeCell {cell : CellId} (mem : cell ∈ own) (value : Int) :
    Rests own scope d (writeCell cell value) () :=
  fun _ _ cells => returns_writeCell (cells cell mem) fun _ assigned =>
    ⟨rfl, rfl, (Cells.evolves_of_assign assigned).size⟩

/-! ## Local computations -/

/-- The computation changes no row out of scope. If it succeeds and no row in scope is another one
afterwards, it changes nothing at all, and rests from then on. -/
structure Local (own : List CellId) (scope : List Watched) (x : Propagation α) : Prop where
  performs : Performs own x
  frame : ∀ s r s', x.exec s = .ok (r, s') → s.domains.AgreesOutside scope s'.domains
  rests : ∀ s a s', s.domains.WellFormed → x.exec s = .ok (.ok a, s') →
    s.domains.Agrees scope s'.domains →
      s'.domains = s.domains ∧ Rests own scope s.domains x a

theorem Local.evolves {x : Propagation α} (h : Local own scope x) : Evolves own x :=
  h.performs.evolves

theorem local_pure (a : α) : Local own scope (pure a) := by
  refine ⟨performs_pure a, fun s r s' ran => ?_, fun s b s' _ ran _ => ?_⟩ <;> cases ran
  · exact .refl _ _
  · exact ⟨rfl, rests_pure a⟩

theorem local_throw (cause : Inconsistency) : Local own scope (throw cause : Propagation α) := by
  refine ⟨performs_throw cause, fun s r s' ran => ?_, fun s b s' _ ran _ => ?_⟩ <;> cases ran
  exact .refl _ _

/-- The rows in scope after the first of two steps lie between those at the start and those at the
end, so that neither step changes one if both together do not. -/
theorem Local.cases_bind {x : Propagation α} {f : α → Propagation β} (h : Local own scope x)
    (performs : ∀ a, Performs own (f a)) {s s'' : Store} {b : β} (wellFormed : s.domains.WellFormed)
    (ran : (x >>= f).exec s = .ok (.ok b, s'')) (same : s.domains.Agrees scope s''.domains) :
    ∃ a s', x.exec s = .ok (.ok a, s') ∧ s'.domains = s.domains ∧
      Rests own scope s.domains x a ∧ (f a).exec s' = .ok (.ok b, s'') := by
  obtain ⟨a, s', first, second⟩ := exec_bind_succeeds_iff.1 ran
  have before := h.evolves s _ s' wellFormed first
  have after := (performs a).evolves s' _ s'' before.wellFormed second
  obtain ⟨unchanged, rests⟩ := h.rests s a s' wellFormed first
    (same.between before.domains.narrows after.domains.narrows)
  exact ⟨a, s', first, unchanged, rests, second⟩

theorem local_bind {x : Propagation α} {f : α → Propagation β} (h : Local own scope x)
    (h' : ∀ a, Local own scope (f a)) : Local own scope (x >>= f) := by
  refine ⟨performs_bind h.performs fun a => (h' a).performs, fun s r s'' ran => ?_,
    fun s b s'' wellFormed ran same => ?_⟩
  · rcases exec_bind_eq_ok_iff.1 ran with ⟨a, s', first, second⟩ | ⟨cause, first, -⟩
    · exact (h.frame s _ s' first).trans ((h' a).frame s' r s'' second)
    · exact h.frame s _ s'' first
  obtain ⟨a, s', -, unchanged, rests, second⟩ :=
    h.cases_bind (fun a => (h' a).performs) wellFormed ran same
  rw [← unchanged] at wellFormed same
  obtain ⟨unchanged', rests'⟩ := (h' a).rests s' b s'' wellFormed second same
  rw [unchanged] at rests' unchanged'
  exact ⟨unchanged', rests_bind rests rests'⟩

/-- A step that is taken on a condition, with what follows it. -/
theorem local_when {c : Prop} [Decidable c] {x : Propagation Unit} {f : Unit → Propagation β}
    (h : Local own scope x) (h' : ∀ a, Local own scope (f a)) :
    Local own scope (if c then x >>= f else f ()) := by
  split
  · exact local_bind h h'
  · exact h' ()

theorem local_ite {c : Prop} [Decidable c] {x y : Propagation α} (h : Local own scope x)
    (h' : Local own scope y) : Local own scope (if c then x else y) := by
  split
  · exact h
  · exact h'

theorem local_inspect {read : Domains → Except Fault α}
    (h : ∀ d d' a, d.Agrees scope d' → read d = .ok a → read d' = .ok a) :
    Local own scope (inspect read) := by
  refine ⟨performs_inspect read, fun s r s' ran => ?_, fun s a s' _ ran _ => ?_⟩ <;>
    obtain ⟨b, known, same, rfl⟩ := exec_inspect_eq_ok_iff.1 ran
  · exact .refl _ _
  cases same
  exact ⟨rfl, rests_inspect fun d' agrees => h _ d' a agrees known⟩

theorem local_liftM (x : Except Fault α) : Local own scope (liftM x : Propagation α) := by
  refine ⟨performs_liftM x, fun s r s' ran => ?_, fun s a s' _ ran _ => ?_⟩ <;>
    obtain ⟨b, known, same, rfl⟩ := exec_liftM_eq_ok_iff.1 ran
  · exact .refl _ _
  cases same
  exact ⟨rfl, rests_liftM known⟩

theorem local_say (m : Message) : Local own scope (say m) := by
  refine ⟨performs_say m, fun s r s' ran => ?_, fun s b s' _ ran _ => ?_⟩ <;> cases ran
  · exact .refl _ _
  · exact ⟨rfl, rests_say m⟩

theorem local_writeCell {cell : CellId} (mem : cell ∈ own) (value : Int) :
    Local own scope (writeCell cell value) := by
  refine ⟨performs_writeCell mem value, fun s r s' ran => ?_, fun s a s' _ ran _ => ?_⟩ <;>
    obtain ⟨-, unchanged, -⟩ := writeCell_spec ran
  · rw [unchanged]
    exact .refl _ _
  exact ⟨unchanged, rests_writeCell mem value⟩

theorem local_setActive {context : Context} (mem : context.activity ∈ own) (active : Bool) :
    Local own scope (setActive context active) :=
  local_writeCell mem _

theorem local_forM {l : List α} {f : α → Propagation PUnit} (h : ∀ a ∈ l, Local own scope (f a)) :
    Local own scope (l.forM f) := by
  induction l with
  | nil => exact local_pure _
  | cons a l ih =>
    exact local_bind (h a List.mem_cons_self) fun _ => ih fun b mem => h b (List.mem_cons_of_mem _ mem)

/-- A decision changes one row only. If it leaves that as it is, it has no effect, and again none
where the row is the same. -/
theorem local_change (decision : Decision)
    (frame : ∀ d d', decision.write d = .ok (some d') → d.AgreesOutside scope d')
    (h : ∀ d d', decision.write d = .ok (some d') → d.Agrees scope d' →
      d' = d ∧ ∀ e, d.Agrees scope e → decision.write e = .ok (some e)) :
    Local own scope (change decision.write) := by
  refine ⟨performs_change decision, fun s r s' ran => ?_, fun s a s' _ ran same => ?_⟩
  · rw [exec_change] at ran
    cases wrote : decision.write s.domains with
    | error fault =>
      rw [wrote] at ran
      cases ran
    | ok left =>
      rw [wrote] at ran
      cases left with
      | none =>
        cases ran
        exact .refl _ _
      | some d' =>
        cases ran
        exact frame _ _ wrote
  obtain ⟨d', wrote, rfl⟩ := exec_change_eq_ok_iff.1 ran
  obtain ⟨unchanged, again⟩ := h _ _ wrote same
  exact ⟨unchanged, fun t agrees _ => returns_change (again _ agrees) ⟨rfl, rfl, rfl⟩⟩

end Propagation

/-! ## Taking computations without cells apart -/

section Bare

variable {α β : Type} {scope : List Watched} {d : Domains}

theorem Propagation.Rests.exists_exec {x : Propagation α} {a : α} (h : Rests [] scope d x a) :
    ∃ s', x.exec ⟨d, .empty, []⟩ = .ok (.ok a, s') ∧ s'.domains = d := by
  obtain ⟨_, s', ran, rfl, unchanged, -⟩ := h ⟨d, .empty, []⟩ (.refl _ _) (by simp)
  exact ⟨s', ran, unchanged⟩

/-- Two local steps rest exactly if both do. -/
theorem Propagation.rests_bind_iff {x : Propagation α} {f : α → Propagation β} {b : β}
    (h : Local [] scope x) (h' : ∀ a, Local [] scope (f a)) (wellFormed : d.WellFormed) :
    Rests [] scope d (x >>= f) b ↔ ∃ a, Rests [] scope d x a ∧ Rests [] scope d (f a) b := by
  constructor
  · intro rests
    obtain ⟨s'', ran, unchanged⟩ := rests.exists_exec
    have same : d.Agrees scope s''.domains := by
      rw [unchanged]
      exact .refl _ _
    obtain ⟨a, s', -, unchanged', first, second⟩ :=
      h.cases_bind (fun a => (h' a).performs) wellFormed ran same
    simp only at unchanged'
    have last := ((h' a).rests s' b s'' (by rw [unchanged']; exact wellFormed) second
      (by rw [unchanged']; exact same)).2
    exact ⟨a, first, by rwa [unchanged'] at last⟩
  · rintro ⟨a, first, second⟩
    exact rests_bind first second

theorem Propagation.rests_seq_iff {x : Propagation Unit} {f : Unit → Propagation β} {b : β}
    (h : Local [] scope x) (h' : ∀ a, Local [] scope (f a)) (wellFormed : d.WellFormed) :
    Rests [] scope d (x >>= f) b ↔ Rests [] scope d x () ∧ Rests [] scope d (f ()) b := by
  rw [rests_bind_iff h h' wellFormed]
  constructor
  · rintro ⟨_, first, second⟩
    exact ⟨first, second⟩
  · rintro ⟨first, second⟩
    exact ⟨(), first, second⟩

theorem Propagation.rests_forM_iff {l : List α} {f : α → Propagation PUnit}
    (h : ∀ a ∈ l, Local [] scope (f a)) (wellFormed : d.WellFormed) :
    Rests [] scope d (l.forM f) ⟨⟩ ↔ ∀ a ∈ l, Rests [] scope d (f a) ⟨⟩ := by
  induction l with
  | nil => exact iff_of_true (rests_pure _) (by simp)
  | cons a l ih =>
    have later := fun b mem => h b (List.mem_cons_of_mem a mem)
    rw [List.forall_mem_cons, ← ih later]
    exact rests_seq_iff (h a List.mem_cons_self) (fun _ => local_forM later) wellFormed

/-- A step that is taken on a condition, with what follows it. -/
theorem Propagation.rests_when_iff {c : Prop} [Decidable c] {x : Propagation Unit}
    {f : Unit → Propagation β} {b : β} (h : Local [] scope x) (h' : ∀ a, Local [] scope (f a))
    (wellFormed : d.WellFormed) : Rests [] scope d (if c then x >>= f else f ()) b ↔
      (c → Rests [] scope d x ()) ∧ Rests [] scope d (f ()) b := by
  by_cases holds : c
  · rw [if_pos holds, rests_seq_iff h h' wellFormed]
    exact and_congr_left fun _ => ⟨fun rests _ => rests, fun rests => rests holds⟩
  · rw [if_neg holds]
    exact ⟨fun rests => ⟨fun given => absurd given holds, rests⟩, And.right⟩

theorem Propagation.liftM_bind_of_eq_ok {x : Except Fault α} {a : α} (h : x = .ok a)
    (f : α → Propagation β) : ((liftM x : Propagation α) >>= f) = f a := by
  subst h
  rfl

theorem Propagation.rests_liftM_bind_iff {x : Except Fault α} {f : α → Propagation β} {b : β} :
    Rests [] scope d (liftM x >>= f) b ↔ ∃ a, x = .ok a ∧ Rests [] scope d (f a) b := by
  constructor
  · intro rests
    obtain ⟨s', ran, -⟩ := rests.exists_exec
    obtain ⟨a, known, -⟩ := exec_liftM_bind_eq_ok_iff.1 ran
    rw [liftM_bind_of_eq_ok known] at rests
    exact ⟨a, known, rests⟩
  · rintro ⟨a, known, rests⟩
    rw [liftM_bind_of_eq_ok known]
    exact rests

theorem Propagation.rests_inspect_bind_iff {read : Domains → Except Fault α}
    {f : α → Propagation β} {a : α} {b : β} (h : ∀ d', d.Agrees scope d' → read d' = .ok a) :
    Rests [] scope d (inspect read >>= f) b ↔ Rests [] scope d (f a) b := by
  have same (s : Store) (agrees : d.Agrees scope s.domains) :
      (inspect read >>= f).exec s = (f a).exec s := by
    rw [exec_bind, exec_inspect, h s.domains agrees]
    rfl
  constructor
  · intro rests s agrees cells
    unfold Returns
    rw [← same s agrees]
    exact rests s agrees cells
  · intro rests s agrees cells
    unfold Returns
    rw [same s agrees]
    exact rests s agrees cells

end Bare

/-! ## Reads and writes of single rows -/

namespace Domains

/-- An update that leaves its row as it is has no effect. -/
theorem update_of_agrees {scope : List Watched} {i : IntervalId} (mem : .interval i ∈ scope)
    {u : Update} {d d' : Domains} (wrote : d.update i u = .ok (some d')) (same : d.Agrees scope d') :
    d' = d ∧ ∀ e, d.Agrees scope e → e.update i u = .ok (some e) := by
  obtain ⟨old, new, found, updated, rows, -⟩ := interval_of_update wrote
  have here := same.interval i old mem found
  rw [rows i, if_pos rfl] at here
  cases here
  have again (e : Domains) (agrees : d.Agrees scope e) : e.update i u = .ok (some e) := by
    simp only [update, agrees.interval i old mem found, updated, bind, Except.bind, if_true]
    rfl
  refine ⟨?_, again⟩
  rw [again d (.refl _ _)] at wrote
  cases wrote
  rfl

theorem agreesOutside_of_update {scope : List Watched} {i : IntervalId} (mem : .interval i ∈ scope)
    {u : Update} {d d' : Domains} (wrote : d.update i u = .ok (some d')) :
    d.AgreesOutside scope d' := by
  obtain ⟨old, new, -, -, rows, others⟩ := interval_of_update wrote
  refine ⟨fun x _ => others x, fun j out => ?_⟩
  rw [rows, if_neg]
  rintro rfl
  exact out mem

/-- A bound that leaves its row as it is has no effect. -/
theorem tighten_of_agrees {scope : List Watched} {x : IntegerId} (mem : .integer x ∈ scope)
    {side : Side} {value : Int} {d d' : Domains} (wrote : d.tighten x side value = .ok (some d'))
    (same : d.Agrees scope d') :
    d' = d ∧ ∀ e, d.Agrees scope e → e.tighten x side value = .ok (some e) := by
  obtain ⟨old, new, found, updated, rows, -⟩ := integer_of_tighten wrote
  have here := same.integer x old mem found
  rw [rows x, if_pos rfl] at here
  cases here
  have again (e : Domains) (agrees : d.Agrees scope e) : e.tighten x side value = .ok (some e) := by
    simp only [tighten, agrees.integer x old mem found, updated, bind, Except.bind, if_true]
    rfl
  refine ⟨?_, again⟩
  rw [again d (.refl _ _)] at wrote
  cases wrote
  rfl

theorem agreesOutside_of_setBound {scope : List Watched} {v : Variable}
    (mem : .integer v.base ∈ scope) {side : Side} {value : Int} {d d' : Domains}
    (wrote : v.setBound side value d = .ok (some d')) : d.AgreesOutside scope d' := by
  rw [Variable.setBound_eq] at wrote
  obtain ⟨bound, -, wrote⟩ := bind_eq_ok_iff.1 wrote
  obtain ⟨old, new, -, -, rows, others⟩ := integer_of_tighten wrote
  refine ⟨fun x out => ?_, fun i _ => others i⟩
  rw [rows, if_neg]
  rintro rfl
  exact out mem

theorem setBound_of_agrees {scope : List Watched} {v : Variable} (mem : .integer v.base ∈ scope)
    {side : Side} {value : Int} {d d' : Domains} (wrote : v.setBound side value d = .ok (some d'))
    (same : d.Agrees scope d') :
    d' = d ∧ ∀ e, d.Agrees scope e → v.setBound side value e = .ok (some e) := by
  rw [Variable.setBound_eq] at wrote
  obtain ⟨bound, mapped, wrote⟩ := bind_eq_ok_iff.1 wrote
  obtain ⟨unchanged, again⟩ := tighten_of_agrees mem wrote same
  refine ⟨unchanged, fun e agrees => ?_⟩
  rw [Variable.setBound_eq, mapped]
  exact again e agrees

end Domains

namespace Propagation

variable {own : List CellId} {scope : List Watched}

theorem local_interval {i : IntervalId} (mem : .interval i ∈ scope) :
    Local own scope (interval i) :=
  local_inspect fun _ _ row agrees found => agrees.interval i row mem found

theorem local_lower {v : Variable} (mem : .integer v.base ∈ scope) : Local own scope (lower v) :=
  local_inspect fun _ _ _ agrees known => agrees.bound mem known

theorem local_upper {v : Variable} (mem : .integer v.base ∈ scope) : Local own scope (upper v) :=
  local_inspect fun _ _ _ agrees known => agrees.bound mem known

theorem local_isFixed {v : Variable} (mem : .integer v.base ∈ scope) :
    Local own scope (isFixed v) :=
  local_inspect fun _ _ _ agrees known => agrees.isFixed mem known

theorem local_isTrue {l : Literal} (mem : .integer l.domain ∈ scope) :
    Local own scope (isTrue l) :=
  local_inspect fun _ _ _ agrees known => by
    obtain ⟨low, lower, answered⟩ := bind_eq_ok_iff.1 known
    exact bind_eq_ok_iff.2 ⟨low, agrees.bound (v := .literal l) mem lower, answered⟩

theorem local_isFalse {l : Literal} (mem : .integer l.domain ∈ scope) :
    Local own scope (isFalse l) :=
  local_inspect fun _ _ _ agrees known => by
    obtain ⟨high, upper, answered⟩ := bind_eq_ok_iff.1 known
    exact bind_eq_ok_iff.2 ⟨high, agrees.bound (v := .literal l) mem upper, answered⟩

theorem local_update {i : IntervalId} (mem : .interval i ∈ scope) (u : Update) :
    Local own scope (update i u) :=
  local_change (.update i u) (fun _ _ => Domains.agreesOutside_of_update mem) fun _ _ =>
    Domains.update_of_agrees mem

theorem local_tighten {i : IntervalId} (mem : .interval i ∈ scope) (which : Bound) (value : Int) :
    Local own scope (tighten i which value) :=
  local_update mem _

theorem local_setBound {v : Variable} (mem : .integer v.base ∈ scope) (side : Side) (value : Int) :
    Local own scope (setBound v side value) :=
  local_change (.setBound v side value) (fun _ _ => Domains.agreesOutside_of_setBound mem)
    fun _ _ => Domains.setBound_of_agrees mem

theorem local_assign {l : Literal} (mem : .integer l.domain ∈ scope) (value : Bool) :
    Local own scope (assign l value) := by
  cases value with
  | true =>
    exact local_change (.assign l true)
      (fun _ _ => Domains.agreesOutside_of_setBound (v := .literal l) mem)
      fun _ _ => Domains.setBound_of_agrees (v := .literal l) mem
  | false =>
    exact local_change (.assign l false)
      (fun _ _ => Domains.agreesOutside_of_setBound (v := .literal l) mem)
      fun _ _ => Domains.setBound_of_agrees (v := .literal l) mem

end Propagation

end Scheduling
