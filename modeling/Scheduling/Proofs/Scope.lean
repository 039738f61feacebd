import Scheduling.Proofs.Literals
import Scheduling.Proofs.Locality
import Scheduling.Proofs.Run

/-!
# The scope of a propagator

The variables that a propagator is about are all that its rules read and write, and it waits for
every change of them. A literal is the exception: only its assignment is waited for, which is enough
for a domain of two values.

Results:
* `Rule.scope`: the variables that a propagator is about.
* `Synchronisation.local_propagate`, `Precedence.local_propagate`, `Checker.local_propagate`,
  `TimeTable.local_filter`, `Machine.local_apply`: the rules are local.
* `Rule.Wakes`, `Rule.agrees_or_wakes`: the rows in scope are the same, or the propagator is told.
* `Posted.tells_of_wakes`: it is registered for what it has to be told.
-/

namespace Scheduling

open Propagation

/-- The variables of an activity. -/
def Activity.scope (a : Activity) : List Watched := [.interval a.interval, .integer a.height.base]

/-- The variables that the propagator is about. Scripts are about anything. -/
def Rule.scope : Rule → List Watched
  | .synchronisation p => [.interval p.source, .interval p.target]
  | .precedence p => [.interval p.first, .interval p.second, .integer p.before.domain]
  | .machine m => m.intervals.toList.map .interval
  | .resource r => r.activities.toList.flatMap Activity.scope
  | .checker c => c.activities.flatMap Activity.scope
  | .script _ => []

/-! ## Synchronisations and precedences -/

namespace Synchronisation

variable {own : List CellId} {scope : List Watched}

theorem local_copyPresence {i j : IntervalId} (mem : .interval i ∈ scope)
    (mem' : .interval j ∈ scope) : Local own scope (copyPresence i j) := by
  refine local_bind (local_interval mem) fun v => ?_
  split
  · exact local_update mem' _
  · exact local_update mem' _
  · exact local_pure _

theorem local_propagate (p : Synchronisation) {context : Context} (mem : context.activity ∈ own) :
    Local own (Rule.synchronisation p).scope (p.propagate context) := by
  have source : .interval p.source ∈ (Rule.synchronisation p).scope := by simp [Rule.scope]
  have target : .interval p.target ∈ (Rule.synchronisation p).scope := by simp [Rule.scope]
  have agree : Local own (Rule.synchronisation p).scope p.agree :=
    local_bind (local_copyPresence source target) fun _ => local_copyPresence target source
  refine local_bind agree fun _ => local_bind (local_interval source) fun v => ?_
  refine local_ite (local_setActive mem _) ?_
  refine local_bind (local_tighten target _ _) fun _ => ?_
  refine local_bind (local_tighten target _ _) fun _ => ?_
  refine local_bind (local_interval target) fun w => ?_
  refine local_bind (local_tighten source _ _) fun _ => ?_
  exact local_bind (local_tighten source _ _) fun _ => agree

end Synchronisation

namespace Precedence

variable {own : List CellId} {scope : List Watched}

theorem local_enforce {earlier later : IntervalId} (mem : .interval earlier ∈ scope)
    (mem' : .interval later ∈ scope) : Local own scope (enforce earlier later) :=
  local_bind (local_interval mem) fun _ => local_when (local_tighten mem' _ _) fun _ =>
    local_bind (local_interval mem') fun _ => local_ite (local_tighten mem _ _) (local_pure _)

theorem local_propagate (p : Precedence) {context : Context} (mem : context.activity ∈ own) :
    Local own (Rule.precedence p).scope (p.propagate context) := by
  have first : .interval p.first ∈ (Rule.precedence p).scope := by simp [Rule.scope]
  have second : .interval p.second ∈ (Rule.precedence p).scope := by simp [Rule.scope]
  have before : .integer p.before.domain ∈ (Rule.precedence p).scope := by simp [Rule.scope]
  have void : Local own (Rule.precedence p).scope p.isVoid :=
    local_bind (local_interval first) fun _ => local_ite (local_pure _)
      (local_bind (local_interval second) fun _ => local_pure _)
  have decide : Local own (Rule.precedence p).scope p.decideOrder :=
    local_bind (local_interval first) fun _ => local_bind (local_interval second) fun _ =>
      local_ite (local_ite (local_assign before _) (local_ite (local_assign before _)
        (local_pure _))) (local_pure _)
  have enforce : Local own (Rule.precedence p).scope p.enforceOrder :=
    local_bind (local_isTrue before) fun _ => local_ite (local_enforce first second)
      (local_bind (local_isFalse before) fun _ =>
        local_ite (local_enforce second first) (local_pure _))
  have retire : Local own (Rule.precedence p).scope (p.retire context) :=
    local_bind (local_interval first) fun _ => local_ite
      (local_bind (local_interval second) fun _ => local_ite
        (local_bind (local_isFixed (v := .literal p.before) before) fun _ =>
          local_ite (local_setActive mem _) (local_pure _))
        (local_pure _))
      (local_pure _)
  exact local_bind void fun _ => local_ite (local_setActive mem _)
    (local_bind decide fun _ => local_bind enforce fun _ => retire)

end Precedence

/-! ## Activities -/

namespace Domains.Agrees

variable {scope : List Watched} {d d' : Domains} (h : d.Agrees scope d')
include h

theorem isFixed_activity {a : Activity} (mem : a.scope ⊆ scope) {answer : Bool}
    (known : a.isFixed d = .ok answer) : a.isFixed d' = .ok answer := by
  obtain ⟨v, row, rest⟩ := bind_eq_ok_iff.1 known
  refine bind_eq_ok_iff.2 ⟨v, h.interval _ v (mem (by simp [Activity.scope])) row, ?_⟩
  split at rest
  · rename_i absent
    rw [if_pos absent]
    exact rest
  · rename_i there
    rw [if_neg there]
    split at rest
    · rename_i placed
      simp only [placed, if_true]
      exact h.isFixed (mem (by simp [Activity.scope])) rest
    · rename_i open'
      simp only [open', Bool.false_eq_true, if_false]
      exact rest

theorem bounds {a : Activity} (mem : a.scope ⊆ scope) {b : ActivityBounds}
    (known : a.bounds d = .ok b) : a.bounds d' = .ok b := by
  obtain ⟨v, row, rest⟩ := bind_eq_ok_iff.1 known
  obtain ⟨low, lower, rest⟩ := bind_eq_ok_iff.1 rest
  obtain ⟨high, upper, rest⟩ := bind_eq_ok_iff.1 rest
  obtain ⟨fixed, isFixed, rest⟩ := bind_eq_ok_iff.1 rest
  have height : .integer a.height.base ∈ scope := mem (by simp [Activity.scope])
  exact bind_eq_ok_iff.2 ⟨v, h.interval _ v (mem (by simp [Activity.scope])) row,
    bind_eq_ok_iff.2 ⟨low, h.bound height lower, bind_eq_ok_iff.2 ⟨high, h.bound height upper,
      bind_eq_ok_iff.2 ⟨fixed, h.isFixed_activity mem isFixed, rest⟩⟩⟩⟩

theorem allFixed {activities : List Activity} (mem : ∀ a ∈ activities, a.scope ⊆ scope)
    {answer : Bool} (known : Checker.allFixed d activities = .ok answer) :
    Checker.allFixed d' activities = .ok answer := by
  induction activities with
  | nil => exact known
  | cons a rest ih =>
    obtain ⟨fixed, isFixed, known⟩ := bind_eq_ok_iff.1 known
    refine bind_eq_ok_iff.2 ⟨fixed, h.isFixed_activity (mem a List.mem_cons_self) isFixed, ?_⟩
    cases fixed with
    | true => exact ih (fun a mem' => mem a (List.mem_cons_of_mem _ mem')) known
    | false => exact known

theorem fixed? {a : Activity} (mem : a.scope ⊆ scope) {answer : Option FixedActivity}
    (known : Checker.fixed? d a = .ok answer) : Checker.fixed? d' a = .ok answer := by
  obtain ⟨v, row, rest⟩ := bind_eq_ok_iff.1 known
  refine bind_eq_ok_iff.2 ⟨v, h.interval _ v (mem (by simp [Activity.scope])) row, ?_⟩
  split at rest
  · rename_i present
    obtain ⟨low, lower, rest⟩ := bind_eq_ok_iff.1 rest
    rw [if_pos present]
    exact bind_eq_ok_iff.2 ⟨low, h.bound (mem (by simp [Activity.scope])) lower, rest⟩
  · rename_i missing
    rw [if_neg missing]
    exact rest

theorem schedule {activities : List Activity} (mem : ∀ a ∈ activities, a.scope ⊆ scope)
    {answer : List FixedActivity}
    (known : activities.filterMapM (Checker.fixed? d) = .ok answer) :
    activities.filterMapM (Checker.fixed? d') = .ok answer := by
  induction activities generalizing answer with
  | nil => exact known
  | cons a rest ih =>
    rw [List.filterMapM_cons] at known ⊢
    obtain ⟨found, fixed, known⟩ := bind_eq_ok_iff.1 known
    refine bind_eq_ok_iff.2 ⟨found, h.fixed? (mem a List.mem_cons_self) fixed, ?_⟩
    have later := fun a mem' => mem a (List.mem_cons_of_mem _ mem')
    cases found with
    | none => exact ih later known
    | some x =>
      obtain ⟨more, known, rest⟩ := bind_eq_ok_iff.1 known
      exact bind_eq_ok_iff.2 ⟨more, ih later known, rest⟩

end Domains.Agrees

theorem Checker.local_propagate (c : Checker) {own : List CellId} :
    Local own (Rule.checker c).scope c.propagate := by
  have mem (a : Activity) (inside : a ∈ c.activities) : a.scope ⊆ (Rule.checker c).scope :=
    fun v member => List.mem_flatMap.2 ⟨a, inside, member⟩
  refine local_bind (local_inspect fun d d' answer agrees => agrees.allFixed mem) fun all => ?_
  refine local_ite ?_ (local_pure _)
  refine local_bind (local_inspect fun d d' answer agrees => agrees.schedule mem) fun schedule => ?_
  refine local_bind (local_liftM _) fun within => ?_
  exact local_ite (local_throw _) (local_pure _)

/-! ## Resources and machines -/

namespace TimeTable

variable {scope : List Watched} {a : Activity} (mem : a.scope ⊆ scope)
include mem

theorem local_restrict (range : Load) : Local [] scope (restrict a.height range) := by
  have height : .integer a.height.base ∈ scope := mem (by simp [Activity.scope])
  exact local_bind (local_lower height) fun _ => local_bind (local_upper height) fun _ =>
    local_when (local_throw _) fun _ => local_when (local_setBound height _ _) fun _ =>
    local_ite (local_setBound height _ _) (local_pure _)

theorem local_tightenHeight (t : TimeTable) (others : Load) :
    Local [] scope (t.tightenHeight a others) :=
  local_bind (local_liftM _) fun _ => local_restrict mem _

theorem local_force (t : TimeTable) (start stop : Int) (others : Load) :
    Local [] scope (t.force a start stop others) := by
  have interval : .interval a.interval ∈ scope := mem (by simp [Activity.scope])
  exact local_bind (local_say _) fun _ => local_bind (local_update interval _) fun _ =>
    local_bind (local_tighten interval _ _) fun _ => local_bind (local_tighten interval _ _) fun _ =>
    local_tightenHeight mem t _

omit mem in
theorem local_coverFrom (t : TimeTable) {c : Captured} (mem : c.activity.scope ⊆ scope)
    (rules : Rules) (left segment : Nat) : Local [] scope (t.coverFrom c rules left segment) := by
  induction left generalizing segment with
  | zero => exact local_pure _
  | succ left ih =>
    refine local_bind (local_liftM _) fun span => local_ite (local_pure _) ?_
    refine local_bind (local_liftM _) fun point => local_bind (local_liftM _) fun others => ?_
    split
    · exact local_when (local_tightenHeight mem t _) fun _ => ih _
    · exact local_when (local_force mem t _ _ _) fun _ => ih _

omit mem in
theorem local_fit (t : TimeTable) {c : Captured} (mem : c.activity.scope ⊆ scope) :
    Local [] scope (t.fit c) := by
  have interval : .interval c.activity.interval ∈ scope := mem (by simp [Activity.scope])
  have height : .integer c.activity.height.base ∈ scope := mem (by simp [Activity.scope])
  refine local_bind (local_interval interval) fun v => local_bind (local_lower height) fun _ =>
    local_bind (local_upper height) fun _ => local_ite (local_pure _) ?_
  refine local_bind (local_liftM _) fun f => ?_
  cases f.heights with
  | none =>
    exact local_ite (local_bind (local_say _) fun _ =>
      local_bind (local_tighten interval _ _) fun _ => local_pure _) (local_pure _)
  | some heights =>
    exact local_ite (local_bind (local_say _) fun _ =>
      local_bind (local_tighten interval _ _) fun _ => local_restrict mem _) (local_restrict mem _)

omit mem in
theorem local_place (t : TimeTable) {c : Captured} (mem : c.activity.scope ⊆ scope) :
    Local [] scope (t.place c) := by
  have interval : .interval c.activity.interval ∈ scope := mem (by simp [Activity.scope])
  exact local_bind (local_liftM _) fun _ => local_when (local_tighten interval _ _) fun _ =>
    local_bind (local_liftM _) fun _ => local_ite (local_tighten interval _ _) (local_pure _)

omit mem in
/-- The rules of a resource for one activity look at that activity only. -/
theorem local_filter (t : TimeTable) {c : Captured} (mem : c.activity.scope ⊆ scope)
    (rules : Rules) : Local [] scope (t.filter rules c) := by
  have interval : .interval c.activity.interval ∈ scope := mem (by simp [Activity.scope])
  refine local_ite (local_pure _) (local_bind (local_place t mem) fun _ => ?_)
  refine local_bind (local_interval interval) fun v => local_ite (local_say _) ?_
  refine local_when (local_coverFrom t mem _ _ _) fun _ => ?_
  exact local_ite (local_bind (local_interval interval) fun _ =>
    local_ite (local_fit t mem) (local_pure _)) (local_pure _)

end TimeTable

/-- What a machine does with the result of its filter concerns one interval at a time. -/
theorem Machine.local_apply {scope : List Watched} (d : Direction) {task : MachineTask}
    (mem : .interval task.interval ∈ scope) (startMin endMax : Int) :
    Local [] scope (apply d task startMin endMax) := by
  refine local_bind (local_interval mem) fun v => local_ite ?_ ?_
  · exact local_bind (local_say _) fun _ => local_update mem _
  · refine local_when ?_ fun _ => local_ite ?_ (local_pure _)
    · cases d <;> exact local_tighten mem _ _
    · cases d <;> exact local_tighten mem _ _

/-! ## What a propagator waits for -/

/-- The events that a change of the variable causes. -/
def Watched.Changes : Watched → Event → Prop
  | interval _, event => event ∈ EventSet.anyInterval
  | integer _, event => event ∈ EventSet.bounds

namespace Rule

/-- The events for which the propagator has to be registered. -/
def Wakes (q : Rule) (v : Watched) (event : Event) : Prop :=
  v ∈ q.scope ∧ match q, v with
    | precedence _, .integer _ => event = .assign
    | _, v => v.Changes event

/-- The literal of a precedence has a domain of two values. -/
def HasBinary (q : Rule) (d : Domains) : Prop :=
  match q with
  | precedence p => d.Binary p.before
  | _ => True

theorem HasBinary.mono {q : Rule} {d d' : Domains} (h : q.HasBinary d) (narrows : d.Narrows d') :
    q.HasBinary d' := by
  cases q with
  | precedence p => exact Domains.Binary.mono h narrows
  | _ => trivial

/-- The rows in scope are the same, unless an event wakes the propagator. -/
theorem agrees_or_wakes {q : Rule} {d d' : Domains} {events : List (Watched × Event)}
    (binary : q.HasBinary d) (wellFormed' : d'.WellFormed) (narrows : d.Narrows d')
    (reports : d.Reports d' events) :
    d.Agrees q.scope d' ∨ ∃ v event, (v, event) ∈ events ∧ q.Wakes v event := by
  by_contra none
  rw [not_or] at none
  obtain ⟨differs, silent⟩ := none
  refine differs ⟨fun x row mem found => ?_, fun i row mem found => ?_⟩
  · obtain ⟨row', found', narrower⟩ := narrows.integer x row found
    by_contra changed
    have other : row' ≠ row := fun same => changed (same ▸ found')
    by_cases literal : ∃ p, q = .precedence p
    · obtain ⟨p, rfl⟩ := literal
      obtain rfl : x = p.before.domain := by
        simpa [scope] using mem
      obtain ⟨row₀, here, least, most⟩ := binary
      rw [found] at here
      cases here
      have le := (wellFormed'.integer _ row' found').lower_le
      have single : row'.lower = row'.upper := by
        obtain ⟨low, high⟩ := narrower
        by_contra two
        apply other
        cases row
        cases row'
        simp only [IntegerDomain.mk.injEq] at *
        omega
      exact silent ⟨_, _, reports.assign _ row row' found found' other single, mem, rfl⟩
    · have wakes (event : Event) (bound : event ∈ EventSet.bounds) :
          q.Wakes (.integer x) event := by
        refine ⟨mem, ?_⟩
        cases q with
        | precedence p => exact absurd ⟨p, rfl⟩ literal
        | _ => exact bound
      rcases reports.bounds x row row' found found' other with told | told
      · exact silent ⟨_, _, told, wakes _ (by simp [EventSet.bounds])⟩
      · exact silent ⟨_, _, told, wakes _ (by simp [EventSet.bounds])⟩
  · obtain ⟨row', found', -⟩ := narrows.interval i row found
    by_contra changed
    have other : row' ≠ row := fun same => changed (same ▸ found')
    obtain ⟨event, any, told⟩ := reports.interval i row row' found found' other
    exact silent ⟨_, event, told, mem, by cases q <;> exact any⟩

end Rule

/-! ## What a propagator is registered for -/

/-- An activity is watched for every change of its interval and of its height. -/
theorem Activity.exists_watch {a : Activity} {v : Watched} (mem : v ∈ a.scope) {event : Event}
    (changes : v.Changes event) : ∃ watch ∈ a.watches, watch.Tells v event := by
  cases v with
  | interval i =>
    obtain rfl : i = a.interval := by simpa [scope] using mem
    exact ⟨.interval a.interval .anyInterval, by simp [watches], rfl, changes⟩
  | integer x =>
    obtain rfl : x = a.height.base := by simpa [scope] using mem
    have both : .lowerBound ∈ a.height.watch .bounds ∧ .upperBound ∈ a.height.watch .bounds :=
      a.height.mem_watch_bounds (by simp [EventSet.bounds])
    refine ⟨.variable a.height .bounds, by simp [watches], rfl, ?_⟩
    simp only [Watched.Changes, EventSet.bounds, List.mem_cons, List.not_mem_nil, or_false] at changes
    rcases changes with rfl | rfl
    · exact both.1
    · exact both.2

/-- A propagator is registered for all that wakes it. -/
theorem Posted.tells_of_wakes {x : Posted} {p : PropagatorId} {cell : CellId} {v : Watched}
    {event : Event} (wakes : (x.blueprint.build p cell).Wakes v event) :
    ∃ watch ∈ x.blueprint.watches, watch.Tells v event := by
  obtain ⟨mem, changes⟩ := wakes
  have activities {xs : List Activity} (mem : v ∈ xs.flatMap Activity.scope)
      (changes : v.Changes event) :
      ∃ watch ∈ xs.flatMap Activity.watches, watch.Tells v event := by
    obtain ⟨a, listed, mem⟩ := List.mem_flatMap.1 mem
    obtain ⟨watch, mem', tells⟩ := Activity.exists_watch mem changes
    exact ⟨watch, List.mem_flatMap.2 ⟨a, listed, mem'⟩, tells⟩
  have interval {is : List IntervalId} {i : IntervalId} (listed : i ∈ is) (same : v = .interval i)
      (changes : v.Changes event) :
      ∃ watch ∈ is.map fun i => Watch.interval i .anyInterval, watch.Tells v event := by
    subst same
    exact ⟨_, List.mem_map_of_mem listed, rfl, changes⟩
  cases x with
  | synchronisation s =>
    obtain ⟨i, listed, same⟩ : ∃ i ∈ [s.source, s.target], v = .interval i := by
      simpa [Posted.blueprint, Blueprint.map, Synchronisation.blueprint, Blueprint.plain, Rule.scope]
        using mem
    exact interval listed same changes
  | precedence r =>
    cases v with
    | interval i =>
      have listed : i ∈ [r.first, r.second] := by
        simpa [Posted.blueprint, Blueprint.map, Precedence.blueprint, Blueprint.plain, Rule.scope]
          using mem
      obtain ⟨watch, mem', tells⟩ := interval listed rfl changes
      exact ⟨watch, List.mem_append_left [_] mem', tells⟩
    | integer y =>
      obtain rfl : y = r.before.domain := by
        simpa [Posted.blueprint, Blueprint.map, Precedence.blueprint, Blueprint.plain, Rule.scope]
          using mem
      obtain rfl : event = .assign := changes
      refine ⟨.variable (.literal r.before) .assign, List.mem_append_right [_, _] (by simp), rfl, ?_⟩
      -- An assignment stays one when the axis is reversed.
      simp only [Variable.watch]
      split <;> simp [EventSet.assign, EventSet.mem_reversed, Event.reversed]
  | checker c => exact activities mem changes
  | machine is =>
    obtain ⟨i, listed, same⟩ := List.mem_map.1 mem
    exact interval (by simpa [Table.toList, Machine.blueprint, Table.ofList] using listed) same.symm
      changes
  | resource xs capacity options => exact activities mem changes
  | script priority watches lists => cases mem

end Scheduling
