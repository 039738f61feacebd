import Scheduling.Variable

/-!
# Expressions

A view can be written down as a variable and the steps that lead from it to the view. The variable
is made by taking the steps one after the other; a step with scale zero, or one after which a
coefficient leaves its word, is a fault. What is only written down cannot fail, so that a script may
hold expressions that are never made into variables.

* `Expression.build`: the variable that an expression stands for.
* `Expression.base_of_build`, `Expression.eval_of_build`: it reads the domain of its start, and its
  value is that of the start taken through the steps.
-/

namespace Scheduling

/-- One step on the way to a view. -/
inductive ViewStep
  /-- A new layer around the variable so far. -/
  | layer (scale offset : Int)
  /-- Multiplication by a factor. -/
  | factor (k : Int)
  /-- Addition of a summand. -/
  | summand (k : Int)
  deriving DecidableEq, Repr

namespace ViewStep

/-- What a step does to a value. -/
def eval : ViewStep → Int → Int
  | layer scale offset, v => scale * v + offset
  | factor k, v => k * v
  | summand k, v => v + k

/-- What a step does to a variable. -/
def apply (v : Variable) : ViewStep → Except Fault Variable
  | layer scale offset => v.view scale offset
  | factor k => v.scaled k
  | summand k => v.shifted k

end ViewStep

/-- A variable and the steps from it to a view. -/
structure Expression where
  start : Variable
  steps : List ViewStep
  deriving DecidableEq, Repr

namespace Expression

/-- The variable that the expression stands for. -/
def build (e : Expression) : Except Fault Variable := e.steps.foldlM ViewStep.apply e.start

/-- The value of the expression when the domain underneath has the value `v`. -/
def eval (e : Expression) (v : Int) : Int :=
  e.steps.foldl (fun value step => step.eval value) (e.start.eval v)

end Expression

theorem Variable.view_eq_ok {v w : Variable} {scale offset : Int}
    (h : v.view scale offset = .ok w) : w = affine v ⟨scale, offset⟩ := by
  unfold view at h; split at h <;> simp_all

theorem ViewStep.base_of_apply {v w : Variable} {step : ViewStep} (h : step.apply v = .ok w) :
    w.base = v.base := by
  cases step with
  | layer scale offset => rw [Variable.view_eq_ok h]; rfl
  | factor k =>
    cases v with
    | plain x => rw [Variable.view_eq_ok h]; rfl
    | literal l => rw [Variable.view_eq_ok h]; rfl
    | affine inner f =>
      simp only [apply, Variable.scaled, bind, Except.bind, pure, Except.pure] at h
      repeat' split at h
      all_goals first | contradiction | (cases h; rfl)
  | summand k =>
    cases v with
    | plain x =>
      have made : (Variable.plain x).view 1 k = .ok w := h
      rw [Variable.view_eq_ok made]; rfl
    | literal l =>
      have made : (Variable.literal l).view 1 k = .ok w := h
      rw [Variable.view_eq_ok made]; rfl
    | affine inner f =>
      simp only [apply, Variable.shifted, bind, Except.bind, pure, Except.pure] at h
      split at h
      · contradiction
      · cases h; rfl

theorem ViewStep.eval_of_apply {v w : Variable} {step : ViewStep} (h : step.apply v = .ok w)
    (value : Int) : w.eval value = step.eval (v.eval value) := by
  cases step with
  | layer scale offset => rw [Variable.view_eq_ok h]; rfl
  | factor k =>
    cases v with
    | plain x => rw [Variable.view_eq_ok h]; simp [Variable.eval, Affine.eval, eval]
    | literal l => rw [Variable.view_eq_ok h]; simp [Variable.eval, Affine.eval, eval]
    | affine inner f =>
      simp only [apply, Variable.scaled, bind, Except.bind, pure, Except.pure] at h
      split at h
      · contradiction
      · rename_i scale scaled
        split at h
        · contradiction
        · rename_i offset shifted
          cases h
          rw [(Width.mul_eq_ok_iff.1 scaled).2, (Width.mul_eq_ok_iff.1 shifted).2]
          simp only [Variable.eval, Affine.eval, eval]
          rw [Int.mul_add, Int.mul_comm k f.offset, ← Int.mul_assoc, Int.mul_comm k f.scale]
  | summand k =>
    cases v with
    | plain x =>
      have made : (Variable.plain x).view 1 k = .ok w := h
      rw [Variable.view_eq_ok made]; simp [Variable.eval, Affine.eval, eval]
    | literal l =>
      have made : (Variable.literal l).view 1 k = .ok w := h
      rw [Variable.view_eq_ok made]; simp [Variable.eval, Affine.eval, eval]
    | affine inner f =>
      simp only [apply, Variable.shifted, bind, Except.bind, pure, Except.pure] at h
      split at h
      · contradiction
      · rename_i offset shifted
        cases h
        rw [(Width.add_eq_ok_iff.1 shifted).2]
        simp only [Variable.eval, Affine.eval, eval]
        omega

namespace Expression

theorem base_of_build {e : Expression} {w : Variable} (h : e.build = .ok w) :
    w.base = e.start.base := by
  obtain ⟨start, steps⟩ := e
  simp only [build] at h ⊢
  induction steps generalizing start with
  | nil => cases h; rfl
  | cons step steps ih =>
    rw [List.foldlM_cons] at h
    cases taken : step.apply start with
    | error cause => simp [taken, bind, Except.bind] at h
    | ok next =>
      simp only [taken, bind, Except.bind] at h
      rw [ih next h, ViewStep.base_of_apply taken]

theorem eval_of_build {e : Expression} {w : Variable} (h : e.build = .ok w) (value : Int) :
    w.eval value = e.eval value := by
  obtain ⟨start, steps⟩ := e
  simp only [build, eval] at h ⊢
  induction steps generalizing start with
  | nil => cases h; rfl
  | cons step steps ih =>
    rw [List.foldlM_cons] at h
    cases taken : step.apply start with
    | error cause => simp [taken, bind, Except.bind] at h
    | ok next =>
      simp only [taken, bind, Except.bind] at h
      rw [ih next h, List.foldl_cons, ViewStep.eval_of_apply taken]

end Expression

end Scheduling
