import Scheduling.Proofs.Cumulative.Enforcement
import Scheduling.Proofs.Disjunctive.Separation

/-!
# The guarantees of all propagators

Resources and machines keep data that later runs rely on, so they are tracked through every run of a
solver from the time when they are posted. The other propagators keep nothing of that kind.

Results:
* `Rule.guarantee`: the guarantee that belongs to a propagator.
* `Rule.family`: each propagator of a run is tracked for it.
-/

namespace Scheduling

namespace Rule

/-- The propagator keeps no active set. -/
def IsPlain : Rule → Prop
  | .resource _ => False
  | .machine _ => False
  | _ => True

/-- Nothing but the kind of the propagator. -/
def plainGuarantee : Guarantee where
  Accepts _ := True
  Invariant _ q _ _ := q.IsPlain
  Allowed _ _ := True
  Watches _ _ := False

/-- The guarantee that belongs to the propagator. -/
def guarantee : Rule → Guarantee
  | .resource r => Resource.guarantee r.activities.toList r.capacity
  | .machine m => Machine.guarantee m.intervals.toList
  | _ => plainGuarantee

theorem IsPlain.guarantee_eq {q : Rule} (h : q.IsPlain) : q.guarantee = plainGuarantee := by
  cases q with
  | resource r => exact h.elim
  | machine m => exact h.elim
  | _ => rfl

theorem IsPlain.sizes_eq {q : Rule} (h : q.IsPlain) : q.sizes = [] := by
  cases q with
  | machine m => exact h.elim
  | resource r => exact h.elim
  | _ => rfl

/-- A run does not change the kind of a propagator. -/
theorem isPlain_of_run {context : Context} {q q' : Rule} {status : Status} {s s' : Store}
    (ran : (Propagator.run context q).run s = .ok ((q', status), s')) (h : q.IsPlain) :
    q'.IsPlain := by
  cases q with
  | resource r => exact h.elim
  | machine m => exact h.elim
  | _ =>
    obtain ⟨p', rfl, -⟩ := lift_spec ran
    trivial

theorem lawful_plain : plainGuarantee.Lawful where
  invariant_mono plain _ _ _ _ := plain
  run {_ q q' _ _ _} ran _ _ plain _ := by
    have plain' := isPlain_of_run ran plain
    refine ⟨plain', by rw [plain.sizes_eq, plain'.sizes_eq], fun cell mem => ?_, fun _ _ _ _ => plain',
      fun _ => trivial⟩
    rw [plain.sizes_eq] at mem
    cases mem
  accepts_of_idle _ _ _ := trivial
  accepts_or_watches _ _ _ _ _ _ := .inl trivial
  accepts_of_narrows _ _ _ _ := trivial

/-- Every propagator of a run can be tracked for its guarantee. -/
theorem family : Guarantee.Family guarantee where
  lawful q := by
    cases q with
    | resource r => exact Resource.lawful _ _
    | machine m => exact Machine.lawful _
    | _ => exact lawful_plain
  allowed q _ _ := by cases q <;> trivial
  same {q q' activity d values} invariant := by
    cases q with
    | resource r =>
      obtain ⟨r', m, s, rfl, fits, -, -⟩ := invariant
      simp only [guarantee, fits.activities, fits.capacity]
    | machine m =>
      obtain ⟨m', n, rfl, fits, -, -⟩ := invariant
      simp only [guarantee, fits.intervals]
    | _ =>
      have plain : q'.IsPlain := invariant
      rw [plain.guarantee_eq]
      rfl
  watches x p cell v event watches := by
    cases x with
    | resource activities capacity options =>
      have waits : (Resource.guarantee activities capacity).Watches v event := watches
      exact Resource.exists_watch options waits
    | machine is =>
      have waits : (Machine.guarantee is).Watches v event := watches
      exact Machine.exists_watch waits
    | _ => exact watches.elim
  starts x p d d' values valid wellFormed integers intervals := by
    cases x with
    | resource activities capacity options =>
      exact Resource.standing_of_blueprint (c := capacity) options valid.1 wellFormed integers
        intervals p values
    | machine is => exact Machine.standing_of_blueprint valid intervals p values
    | _ => trivial

end Rule

end Scheduling
