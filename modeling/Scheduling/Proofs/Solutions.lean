import Scheduling.Assignment
import Scheduling.Proofs.Computation

/-!
# Writes that keep an assignment

A write succeeds and keeps an assignment of the domains if the assignment lies on the side of the
write that is kept.

Results:
* `Store.Keeps`: a later store that has not lost an assignment.
* `Propagation.returns_update`, `Propagation.returns_tighten`, `Propagation.returns_setBound`: the
  writes.
-/

namespace Scheduling

/-- Every end of the domain underneath decides an end of the variable. -/
theorem Variable.side_eq (v : Variable) (s : Side) : v.side .lower = s ∨ v.side .upper = s := by
  have affine (f : Affine) (s : Side) : f.side .lower = s ∨ f.side .upper = s := by
    unfold Affine.side
    split <;> cases s <;> simp [Side.opposite]
  induction v with
  | plain => cases s <;> simp [side]
  | literal l => exact affine l.affine s
  | affine inner f ih =>
    simp only [side]
    rcases ih with eq | eq
    · exact (affine f .lower).imp (fun h => by rw [h, eq]) (fun h => by rw [h, eq])
    · exact (affine f .upper).imp (fun h => by rw [h, eq]) (fun h => by rw [h, eq])

theorem Variable.side_lower_ne (v : Variable) : v.side .lower ≠ v.side .upper := by
  intro same
  rcases v.side_eq .lower with h | h <;> rcases v.side_eq .upper with h' | h' <;> simp_all

namespace Domains

variable {d : Domains} {a : Assignment}

/-- An update that allows the value of an interval succeeds and keeps the assignment. -/
theorem exists_update {i : IntervalId} {row : Interval} {u : Update} (wellFormed : d.WellFormed)
    (here : d.interval i = .ok row) (admits : d.Admits a) (keeps : u.Keeps (a.interval i)) :
    ∃ d', d.update i u = .ok (some d') ∧ d'.Admits a := by
  have inside := admits.interval i row here
  have rowWellFormed := wellFormed.interval i row here
  cases after : row.update? u with
  | none => exact absurd keeps (Interval.not_keeps_of_update?_eq_none rowWellFormed after inside)
  | some new =>
    obtain ⟨d', updated⟩ : ∃ d', d.update i u = .ok (some d') := by
      simp only [update, here, after, bind, Except.bind]
      split <;> exact ⟨_, rfl⟩
    refine ⟨d', updated, ?_⟩
    obtain ⟨old, new', here', after', intervals, integers⟩ := interval_of_update updated
    rw [here] at here'
    cases here'
    rw [after] at after'
    cases after'
    refine ⟨fun x row found => admits.integer x row (by rw [← integers, found]),
      fun j row found => ?_⟩
    rw [intervals] at found
    split at found
    · rename_i same
      cases found
      exact same ▸ (Interval.admits_of_update? rowWellFormed after).2 ⟨inside, keeps⟩
    · exact admits.interval j row found

/-- Moving a bound of a domain that keeps its value succeeds and keeps the assignment. -/
theorem exists_tighten {x : IntegerId} {row : IntegerDomain} {side : Side} {value : Int}
    (wellFormed : row.WellFormed) (here : d.integer x = .ok row) (admits : d.Admits a)
    (keeps : side.Keeps value (a.integer x)) :
    ∃ d', d.tighten x side value = .ok (some d') ∧ d'.Admits a := by
  have inside := admits.integer x row here
  obtain ⟨d', tightened⟩ : ∃ d', d.tighten x side value = .ok (some d') := by
    cases after : row.update? side value with
    | none =>
      exact absurd keeps
        ((IntegerDomain.update?_eq_none_iff wellFormed.lower_le).1 after _ inside)
    | some new =>
      simp only [tighten, here, after, bind, Except.bind]
      split <;> exact ⟨_, rfl⟩
  exact ⟨d', tightened, (admits_of_tighten tightened).2 ⟨admits, keeps⟩⟩

/-- Moving a bound of a variable that cuts its values but keeps the one of the assignment succeeds
and keeps the assignment. -/
theorem exists_setBound {v : Variable} {side : Side} {value low high : Int}
    (wellFormed : d.WellFormed) (lower : v.lower d = .ok low) (upper : v.upper d = .ok high)
    (admits : d.Admits a) (keeps : side.Keeps value (a.value v)) (cuts : side.Cuts low high value) :
    ∃ d', v.setBound side value d = .ok (some d') ∧ d'.Admits a := by
  obtain ⟨row, here⟩ := Variable.exists_row_of_bound lower
  have rowWellFormed := wellFormed.integer _ row here
  obtain ⟨fitsLow, rfl⟩ := (Variable.bound_eq_ok_iff here rowWellFormed).1 lower
  obtain ⟨fitsHigh, rfl⟩ := (Variable.bound_eq_ok_iff here rowWellFormed).1 upper
  have fits (s : Side) : v.Fits (row.bound s) := by
    rcases v.side_eq s with eq | eq <;> rw [← eq] <;> assumption
  obtain ⟨bound, mapped⟩ := Variable.exists_invert rowWellFormed fits cuts
  obtain ⟨d', tightened, admits'⟩ := exists_tighten rowWellFormed here admits
    ((Variable.keeps_iff_of_invert mapped _).2 keeps)
  exact ⟨d', by rw [Variable.setBound_eq, mapped]; exact tightened, admits'⟩

/-- Moving the lower bound of a variable leaves the upper one. -/
theorem upper_of_setBound_lower {d' : Domains} {v : Variable} {value high : Int}
    (wellFormed : d.WellFormed) (h : v.setBound .lower value d = .ok (some d'))
    (upper : v.upper d = .ok high) : v.upper d' = .ok high := by
  obtain ⟨wellFormed', -⟩ := evolves_of_setBound wellFormed h
  rw [Variable.setBound_eq] at h
  obtain ⟨bound, -, h⟩ := bind_eq_ok_iff.1 h
  obtain ⟨old, new, here, updated, integers, -⟩ := integer_of_tighten h
  have here' : d'.integer v.base = .ok new := by rw [integers, if_pos rfl]
  obtain ⟨fits, rfl⟩ := (Variable.bound_eq_ok_iff here (wellFormed.integer _ old here)).1 upper
  have same : new.bound (v.side .upper) = old.bound (v.side .upper) := by
    have differs := v.side_lower_ne
    cases low : v.side .lower <;> cases up : v.side .upper <;>
      simp only [low, up, ne_eq, not_true_eq_false] at differs <;>
      simp only [low, IntegerDomain.update?] at updated <;> split at updated <;>
      (try split at updated) <;> cases updated <;> rfl
  exact (Variable.bound_eq_ok_iff here' (wellFormed'.integer _ new here')).2
    ⟨same ▸ fits, by rw [same]⟩

/-- Narrower domains have both ends of a variable, too. -/
theorem Narrows.exists_ends {d d' : Domains} (h : d.Narrows d') (wellFormed : d.WellFormed)
    (wellFormed' : d'.WellFormed) {v : Variable} {low high : Int} (lower : v.lower d = .ok low)
    (upper : v.upper d = .ok high) :
    ∃ low' high', v.lower d' = .ok low' ∧ v.upper d' = .ok high' := by
  obtain ⟨row, here⟩ := Variable.exists_row_of_bound lower
  have rowWellFormed := wellFormed.integer _ row here
  obtain ⟨row', here', narrows⟩ := h.integer _ row here
  have rowWellFormed' := wellFormed'.integer _ row' here'
  obtain ⟨fitsLow, -⟩ := (Variable.bound_eq_ok_iff here rowWellFormed).1 lower
  obtain ⟨fitsHigh, -⟩ := (Variable.bound_eq_ok_iff here rowWellFormed).1 upper
  have ends (s : Side) : v.Fits (row.bound s) := by
    rcases v.side_eq s with eq | eq <;> rw [← eq] <;> assumption
  have fits (s : Side) : v.Fits (row'.bound s) := by
    have order := rowWellFormed'.lower_le
    refine Variable.fits_of_between (ends .lower) (ends .upper) ?_ ?_ <;>
      cases s <;> simp only [IntegerDomain.bound] <;>
      have := narrows.lower_le <;> have := narrows.upper_le <;> omega
  exact ⟨_, _, (Variable.bound_eq_ok_iff here' rowWellFormed').2 ⟨fits _, rfl⟩,
    (Variable.bound_eq_ok_iff here' rowWellFormed').2 ⟨fits _, rfl⟩⟩

end Domains

/-- A later store that has lost no value of an assignment, nor written a cell. -/
structure Store.Keeps (a : Assignment) (s s' : Store) : Prop where
  wellFormed : s'.domains.WellFormed
  narrows : s.domains.Narrows s'.domains
  admits : s'.domains.Admits a
  cells : s'.cells = s.cells

namespace Store.Keeps

variable {a : Assignment} {s s' : Store}

theorem refl (wellFormed : s.domains.WellFormed) (admits : s.domains.Admits a) : s.Keeps a s :=
  ⟨wellFormed, .refl _, admits, rfl⟩

theorem say (h : s.Keeps a s') (m : Message) : s.Keeps a (s'.say m) :=
  ⟨h.wellFormed, h.narrows, h.admits, h.cells⟩

end Store.Keeps

namespace Propagation

variable {a : Assignment} {s s₀ : Store}

/-- A write that keeps the assignment. -/
theorem returns_change_of_keeps (h : s₀.Keeps a s)
    {write : Domains → Except Fault (Option Domains)}
    (evolves : ∀ d d', d.WellFormed → write d = .ok (some d') → d'.WellFormed ∧ d.Evolves d')
    (keeps : ∃ d', write s.domains = .ok (some d') ∧ d'.Admits a) :
    Returns (change write) s fun _ s' => s₀.Keeps a s' := by
  obtain ⟨d', wrote, admits⟩ := keeps
  obtain ⟨wellFormed, moved⟩ := evolves _ _ h.wellFormed wrote
  exact returns_change wrote ⟨wellFormed, h.narrows.trans moved.narrows, admits, h.cells⟩

theorem returns_update (h : s₀.Keeps a s) {i : IntervalId} {row : Interval} {u : Update}
    (here : s₀.domains.interval i = .ok row) (keeps : u.Keeps (a.interval i)) :
    Returns (update i u) s fun _ s' => s₀.Keeps a s' := by
  obtain ⟨row', here', -⟩ := h.narrows.interval i row here
  exact returns_change_of_keeps h (fun _ _ wellFormed => Domains.evolves_of_update wellFormed)
    (Domains.exists_update h.wellFormed here' h.admits keeps)

theorem returns_tighten (h : s₀.Keeps a s) {i : IntervalId} {row : Interval} {which : Bound}
    {value : Int} (here : s₀.domains.interval i = .ok row)
    (keeps : ∀ start length, a.interval i = .placed start length → which.Keeps value start length) :
    Returns (tighten i which value) s fun _ s' => s₀.Keeps a s' := by
  refine returns_update h here ?_
  cases placed : a.interval i with
  | absent => trivial
  | placed start length => exact keeps start length placed

theorem returns_setBound (h : s₀.Keeps a s) {v : Variable} {side : Side} {value low high : Int}
    (lower : v.lower s.domains = .ok low) (upper : v.upper s.domains = .ok high)
    (keeps : side.Keeps value (a.value v)) (cuts : side.Cuts low high value) :
    Returns (setBound v side value) s fun _ s' => s₀.Keeps a s' :=
  returns_change_of_keeps h (fun _ _ wellFormed => Domains.evolves_of_setBound wellFormed)
    (Domains.exists_setBound h.wellFormed lower upper h.admits keeps cuts)

end Propagation

end Scheduling
