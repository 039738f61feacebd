import Scheduling.Proofs.Cumulative.Fixed
import Scheduling.Proofs.Cumulative.Tabulation
import Scheduling.Proofs.Disjunctive.Placement
import Scheduling.Satisfaction

/-!
# Checkers decide the constraint

A checker waits until all activities are fixed. What it tests then is the schedule of the present
ones, which has the level of every assignment that is left, so that it finds a conflict exactly if
the level leaves the capacity where some activity executes.

Results:
* `FixedSchedule.exists_level_eq`: known activities make the schedule of every assignment.
* `Checker.holds_iff_of_propagate`: a run on fixed activities succeeds exactly if they satisfy the
  constraint.
-/

namespace Scheduling

open Propagation

/-- A variable with one value has it in every assignment within the domains. -/
theorem Variable.lower_of_isFixed {v : Variable} {d : Domains} {a : Assignment}
    (wellFormed : d.WellFormed) (admits : d.Admits a) (fixed : v.isFixed d = .ok true) :
    v.lower d = .ok (a.value v) := by
  obtain ⟨low, lower, -⟩ := bind_eq_ok_iff.1 fixed
  obtain ⟨row, here⟩ := exists_row_of_bound lower
  have rowWellFormed := wellFormed.integer _ row here
  obtain ⟨-, rfl⟩ := (bound_eq_ok_iff here rowWellFormed).1 lower
  rw [lower, eval_eq_of_isFixed here rowWellFormed fixed (rowWellFormed.admits_bound _)
    (admits.integer _ row here)]
  rfl

namespace FixedSchedule

theorem level_cons (x : FixedActivity) (s : FixedSchedule) (time : Int) :
    level (x :: s) time = (if x.executesAt time then x.height else 0) + level s time := by
  unfold level
  rw [List.filter_cons]
  split <;> simp

/-- Activities that are absent, or placed with a known height, make a schedule. Under any assignment
within the domains it has at every time the level of the activities, and executes when one of them
does. -/
theorem exists_level_eq {d : Domains} {a : Assignment} (admits : d.Admits a) {xs : List Activity}
    (known : ∀ x ∈ xs, d.Lacks x.interval ∨ (∃ start stop, d.Places x.interval start stop) ∧
      x.height.lower d = .ok (a.value x.height)) :
    ∃ schedule : FixedSchedule, xs.filterMapM (Checker.fixed? d) = .ok schedule ∧
      ∀ time, schedule.level time = a.level xs time ∧
        (schedule.Busy time ↔ ∃ x ∈ xs, (a.interval x.interval).executesAt time = true) := by
  induction xs with
  | nil => exact ⟨[], rfl, fun _ => ⟨rfl, by simp [Busy]⟩⟩
  | cons x xs ih =>
    obtain ⟨schedule, collected, agree⟩ := ih fun y mem => known y (List.mem_cons_of_mem _ mem)
    have first (time : Int) : a.level (x :: xs) time = a.contribution time x + a.level xs time := by
      simp [Assignment.level]
    rw [List.filterMapM_cons]
    rcases known x List.mem_cons_self with ⟨v, row, absent⟩ | ⟨⟨start, stop, placed⟩, height⟩
    · refine ⟨schedule, ?_, fun time => ?_⟩
      · have none : Checker.fixed? d x = .ok none := by
          have missing : v.isPresent = false := by
            simp only [Interval.isAbsent, beq_iff_eq] at absent
            simp [Interval.isPresent, absent]
          simp [Checker.fixed?, row, missing, bind, Except.bind, pure, Except.pure]
        simp [none, collected, bind, Except.bind]
      · have value := admits.interval_eq_of_lacks ⟨v, row, absent⟩
        rw [first, (agree time).1, (agree time).2, Assignment.contribution, value]
        simp [IntervalValue.executesAt, value]
    · have value := admits.interval_eq_of_places placed
      obtain ⟨v, row, present, v1, -, v3, -⟩ := placed
      refine ⟨⟨start, stop, a.value x.height⟩ :: schedule, ?_, fun time => ?_⟩
      · have some : Checker.fixed? d x = .ok (some ⟨start, stop, a.value x.height⟩) := by
          simp [Checker.fixed?, row, present, height, v1, v3, bind, Except.bind, pure, Except.pure]
        simp [some, collected, bind, Except.bind, pure, Except.pure]
      · have last : start + (stop - start) = stop := by omega
        have executes : FixedActivity.executesAt ⟨start, stop, a.value x.height⟩ time =
            (a.interval x.interval).executesAt time := by
          rw [value, FixedActivity.executesAt, IntervalValue.executesAt, last]
        rw [level_cons, first, (agree time).1, Assignment.contribution, executes]
        refine ⟨rfl, ?_⟩
        simp only [Busy, List.mem_cons, exists_eq_or_imp, executes] at agree ⊢
        rw [(agree time).2]

end FixedSchedule

namespace Checker

theorem allFixed_of_forall {d : Domains} {xs : List Activity}
    (fixed : ∀ x ∈ xs, x.isFixed d = .ok true) : allFixed d xs = .ok true := by
  induction xs with
  | nil => rfl
  | cons x xs ih =>
    rw [allFixed, fixed x List.mem_cons_self]
    exact ih fun y mem => fixed y (List.mem_cons_of_mem _ mem)

/-- What is known of a fixed activity. -/
theorem known_of_isFixed {x : Activity} {d : Domains} {a : Assignment} (wellFormed : d.WellFormed)
    (admits : d.Admits a) (fixed : x.isFixed d = .ok true) :
    d.Lacks x.interval ∨ (∃ start stop, d.Places x.interval start stop) ∧
      x.height.lower d = .ok (a.value x.height) := by
  obtain ⟨v, row, absent | ⟨-, present, settled, height⟩⟩ := Activity.isFixed_eq_true_iff.1 fixed
  · exact .inl ⟨v, row, absent⟩
  · simp only [Bounds.isFixed, Bool.and_eq_true, beq_iff_eq] at settled
    exact .inr ⟨⟨v.startMin, v.endMin, v, row, present, rfl, settled.1.symm, rfl, settled.2.symm⟩,
      Variable.lower_of_isFixed wellFormed admits height⟩

/-- Once all activities are fixed, a run of the checker changes nothing, and it finds a conflict
exactly if an assignment within the domains, which all agree on the activities, violates the
constraint. -/
theorem holds_iff_of_propagate {c : Checker} {s s' : Store} {status : Status} {a : Assignment}
    (wellFormed : s.domains.WellFormed)
    (fixed : ∀ x ∈ c.activities, x.isFixed s.domains = .ok true)
    (ran : c.propagate.exec s = .ok (status, s')) (admits : s.domains.Admits a) :
    s' = s ∧ (status = .ok () ↔ c.Holds a) := by
  obtain ⟨answer, asked, ran⟩ := exec_inspect_bind_eq_ok_iff.1 ran
  rw [allFixed_of_forall fixed] at asked
  cases asked
  obtain ⟨schedule, collected, ran⟩ := exec_inspect_bind_eq_ok_iff.1 ran
  obtain ⟨_, same, agree⟩ := FixedSchedule.exists_level_eq admits fun x mem =>
    known_of_isFixed wellFormed admits (fixed x mem)
  rw [collected] at same
  cases same
  obtain ⟨within, tested, ran⟩ := exec_liftM_bind_eq_ok_iff.1 ran
  have meaning : within = true ↔ c.Holds a := by
    rw [FixedSchedule.isWithin_spec tested]
    exact forall_congr' fun time => by rw [(agree time).1, (agree time).2]
  rw [← meaning]
  cases within <;> cases ran <;> simp

end Checker

end Scheduling
