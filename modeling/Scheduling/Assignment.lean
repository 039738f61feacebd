import Scheduling.Variable

/-!
# Assignments

An assignment gives every integer variable a number and every interval variable a placement or
absence. Domains are judged by the assignments that they admit.

* `Assignment.value`: the value of a variable through its views.
* `Domains.Admits`: the assignments within the domains.
* `Domains.admits_of_tighten`: tightening an integer variable keeps exactly the assignments with a
  value on the kept side.
-/

namespace Scheduling

/-- A value for every variable. -/
structure Assignment where
  integer : IntegerId → Int
  interval : IntervalId → IntervalValue

namespace IntervalValue

/-- The interval takes place. -/
def isPresent : IntervalValue → Bool
  | absent => false
  | placed _ _ => true

/-- The interval takes place and executes at a time. -/
def executesAt (time : Int) : IntervalValue → Bool
  | absent => false
  | placed start length => start ≤ time && time < start + length

/-- The first interval ends before the second one starts, if both take place. -/
def Precedes : IntervalValue → IntervalValue → Prop
  | placed start length, placed start' _ => start + length ≤ start'
  | _, _ => True

end IntervalValue

namespace Assignment

/-- The value of a variable. -/
def value (a : Assignment) (v : Variable) : Int := v.eval (a.integer v.base)

/-- The literal is true. -/
def holds (a : Assignment) (l : Literal) : Bool := a.value (.literal l) == 1

end Assignment

namespace Domains

/-- Every variable has a value of its domain. -/
structure Admits (d : Domains) (a : Assignment) : Prop where
  integer : ∀ x domain, d.integer x = .ok domain → domain.Admits (a.integer x)
  interval : ∀ i domain, d.interval i = .ok domain → domain.Admits (a.interval i)

/-- A change of one integer domain matters for that variable only. -/
theorem admits_of_integer_set {d : Domains} {x : IntegerId} {old new : IntegerDomain}
    {a : Assignment} {p : Prop} (here : d.integer x = .ok old)
    (kept : new.Admits (a.integer x) ↔ old.Admits (a.integer x) ∧ p) (events : List Event) :
    (({ d with integers := d.integers.set x.index new } : Domains).commit (.integer x old)
      (.integer x) events).Admits a ↔ d.Admits a ∧ p := by
  have row := integer_eq_ok_iff.1 here
  have inside : x.index < d.integers.size := by
    refine Nat.lt_of_not_le fun beyond => ?_
    simp [Table.get?_eq_none_iff.2 beyond] at row
  have look (y : IntegerId) (domain : IntegerDomain) :
      (({ d with integers := d.integers.set x.index new } : Domains).commit (.integer x old)
        (.integer x) events).integer y = .ok domain ↔
        if x = y then domain = new else d.integer y = .ok domain := by
    simp only [integer_eq_ok_iff, commit, Table.get?_set, inside, if_true]
    cases x; cases y
    simp only [IntegerId.mk.injEq]
    split <;> simp [eq_comm]
  constructor
  · intro h
    have value := kept.1 (h.integer x new ((look x new).2 (by simp)))
    refine ⟨⟨fun y domain row => ?_, fun i domain row => h.interval i domain row⟩, value.2⟩
    by_cases same : x = y
    · subst same
      rw [here] at row
      cases row
      exact value.1
    · exact h.integer y domain ((look y domain).2 (by simpa [same] using row))
  · rintro ⟨h, holds⟩
    refine ⟨fun y domain row => ?_, fun i domain row => h.interval i domain row⟩
    have seen := (look y domain).1 row
    split at seen
    · rename_i same
      subst same seen
      exact kept.2 ⟨h.integer x old here, holds⟩
    · exact h.integer y domain seen

/-- Tightening an integer variable keeps exactly the assignments with a value on the kept side. -/
theorem admits_of_tighten {d d' : Domains} {x : IntegerId} {side : Side} {bound : Int}
    {a : Assignment} (h : d.tighten x side bound = .ok (some d')) :
    d'.Admits a ↔ d.Admits a ∧ side.Keeps bound (a.integer x) := by
  unfold tighten at h
  cases here : d.integer x with
  | error fault => simp [here, bind, Except.bind] at h
  | ok old =>
    cases after : old.update? side bound with
    | none => simp [here, after, bind, Except.bind, pure, Except.pure] at h
    | some new =>
      have kept : new.Admits (a.integer x) ↔
          old.Admits (a.integer x) ∧ side.Keeps bound (a.integer x) :=
        IntegerDomain.admits_of_update? after
      simp only [here, after, bind, Except.bind, pure, Except.pure] at h
      split at h
      · rename_i same
        subst same
        cases h
        exact ⟨fun h => ⟨h, (kept.1 (h.integer x _ here)).2⟩, And.left⟩
      · cases h
        exact admits_of_integer_set here kept _

end Domains

end Scheduling
