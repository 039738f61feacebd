import Scheduling.Proofs.Cumulative.ActiveSet
import Scheduling.Proofs.Cumulative.Filter
import Scheduling.Proofs.Reachability

/-!
# The guarantee of a resource

Once all activities are fixed, the level stays within the capacity wherever one of them executes.
A run looks at the active activities only; that those are enough is the invariant of the active set
and of the stored span, which every run keeps, for all checkpoints to which the search may return.

Results:
* `Resource.Ran`, `Resource.ran_of_propagate`: the ways in which a run comes to an end.
* `Resource.Course`, `Resource.course_of_run`: how a run goes.
* `Resource.Enforced`: the level stays within the capacity under all assignments.
* `Resource.guarantee`, `Resource.lawful`: the guarantee, and that a resource gives it.
-/

namespace Scheduling

open Propagation

/-- The level respects the limits that there are. -/
def Capacity.Allows (c : Capacity) (level : Int) : Prop :=
  (c.hasMinimum = true → c.minimum ≤ level) ∧ (c.hasMaximum = true → level ≤ c.maximum)

namespace Resource

/-! ## Runs -/

/-- The ways in which a run comes to an end, once the active activities are captured. -/
inductive Ran (r : Resource) (context : Context) (s : Store) (cs : List Captured) (status : Status)
    (s' : Store) : Prop
  | idle (empty : cs = []) (off : (setActive context false).exec s = .ok (status, s'))
  | safe (safe : isSafe r.capacity (cs.map Captured.bounds) = true)
    (off : (setActive context false).exec (s.say .capacitySafe) = .ok (status, s'))
  | conflict (failed : status ≠ .ok ()) (same : s' = s)
  | settled (profile : Profile) (build : Profile.build (cs.map Captured.bounds) = .ok profile)
    (consistent : profile.isConsistent r.capacity.minimum r.capacity.maximum = true)
    (fixed : ∀ b ∈ cs, b.bounds.isFixed = true)
    (off : (setActive context false).exec s = .ok (status, s'))
  | failed (failed : status ≠ .ok ()) (evolves : s.Evolves [] s')
  | stored (profile : Profile) (build : Profile.build (cs.map Captured.bounds) = .ok profile)
    (consistent : profile.isConsistent r.capacity.minimum r.capacity.maximum = true)
    (moving : ∃ b ∈ cs, b.bounds.isFixed = false) (t : Store) (evolves : s.Evolves [] t)
    (filtered : ((cs.filter fun b => !b.bounds.isFixed).forM (TimeTable.filter ⟨profile, r.capacity⟩
      (r.rules (cs.map Captured.bounds)))).exec s = .ok (.ok (), t))
    (store : (r.storeSpan (cs.map Captured.bounds)).exec t = .ok (status, s'))

/-- What a run captures. -/
theorem captured_of_exec {d : Domains} {r : Resource} {members : List Nat} {s s' : Store}
    {result : Except Inconsistency (List Captured)} (here : s.domains = d)
    (ran : (members.mapM fun index => do
        let a ← r.activities.read index
        return (⟨a, ← inspect a.bounds⟩ : Captured) : Propagation (List Captured)).exec s =
          .ok (result, s')) :
    s' = s ∧ ∃ cs, result = .ok cs ∧ List.Forall₂ (fun k b => r.activities.get? k = some b.activity ∧
      b.activity.bounds d = .ok b.bounds) members cs := by
  induction members generalizing result s' with
  | nil =>
    cases ran
    exact ⟨rfl, [], rfl, .nil⟩
  | cons k members ih =>
    rw [List.mapM_cons] at ran
    rcases exec_bind_eq_ok_iff.1 ran with ⟨b, t, single, more⟩ | ⟨cause, single, -⟩
    all_goals
      obtain ⟨x, read, single⟩ := exec_liftM_bind_eq_ok_iff.1 single
      obtain ⟨bounds, known, single⟩ := exec_inspect_bind_eq_ok_iff.1 single
      cases single
    rcases exec_bind_eq_ok_iff.1 more with ⟨cs, t', rest, last⟩ | ⟨cause, rest, rfl⟩
    · obtain ⟨rfl, cs', eq, pairs⟩ := ih rest
      cases eq
      cases last
      exact ⟨rfl, _, rfl, .cons ⟨Table.read_eq_ok_iff.1 read, here ▸ known⟩ pairs⟩
    · obtain ⟨-, cs', eq, -⟩ := ih rest
      cases eq

theorem captured_of_capture {r : Resource} {m : Nat} {s s' : Store}
    {result : Except Inconsistency (List Captured)}
    (size : s.cells.values.get? r.active.size.index = some (m : Int))
    (ran : r.capture.exec s = .ok (result, s')) :
    s' = s ∧ ∃ cs, result = .ok cs ∧ List.Forall₂ (fun k b => r.activities.get? k = some b.activity ∧
      b.activity.bounds s.domains = .ok b.bounds) (r.active.elements.toList.take m) cs := by
  rw [capture, exec_bind, exec_get] at ran
  obtain ⟨members, listed, ran⟩ := exec_liftM_bind_eq_ok_iff.1 ran
  rw [SparseSet.members_eq_ok size] at listed
  cases listed
  exact captured_of_exec rfl ran

theorem ran_of_filter {r : Resource} {context : Context} {cs : List Captured} {s s' : Store}
    {status : Status} (wellFormed : s.domains.WellFormed)
    (ran : (r.filter context cs).exec s = .ok (status, s')) : Ran r context s cs status s' := by
  obtain ⟨profile, build, ran⟩ := exec_liftM_bind_eq_ok_iff.1 ran
  simp only at ran
  split at ran
  · rcases exec_bind_eq_ok_iff.1 ran with ⟨_, t', thrown, -⟩ | ⟨cause, thrown, rfl⟩
    · cases thrown
    · cases thrown
      exact .conflict (by simp) rfl
  rename_i consistent
  have consistent : profile.isConsistent r.capacity.minimum r.capacity.maximum = true := by
    simpa using consistent
  split at ran
  · rename_i fixed
    refine .settled profile build consistent (fun b mem => ?_) ran
    exact List.all_eq_true.1 fixed _ (List.mem_map_of_mem mem)
  rename_i moving
  have quiet : Evolves [] ((cs.filter fun c => !c.bounds.isFixed).forM
      (TimeTable.filter ⟨profile, r.capacity⟩ (r.rules (cs.map Captured.bounds)))) :=
    (performs_forM _ fun c => TimeTable.performs_filter _ _ c).evolves
  rcases exec_bind_eq_ok_iff.1 ran with ⟨_, t', filtered, store⟩ | ⟨cause, filtered, rfl⟩
  · refine .stored profile build consistent ?_ t' (quiet _ _ _ wellFormed filtered) filtered store
    simpa [List.all_map, List.all_eq_true] using moving
  · exact .failed (by simp) (quiet _ _ _ wellFormed filtered)

/-- The run captures the active activities and then comes to one of its ends. -/
theorem ran_of_propagate {r : Resource} {context : Context} {m : Nat} {s s' : Store}
    {status : Status} (wellFormed : s.domains.WellFormed)
    (size : s.cells.values.get? r.active.size.index = some (m : Int))
    (ran : (r.propagate context).exec s = .ok (status, s')) :
    ∃ cs, List.Forall₂ (fun k b => r.activities.get? k = some b.activity ∧
      b.activity.bounds s.domains = .ok b.bounds) (r.active.elements.toList.take m) cs ∧
        Ran r context s cs status s' := by
  rcases exec_bind_eq_ok_iff.1 ran with ⟨cs, t, captured, rest⟩ | ⟨cause, captured, -⟩
  · obtain ⟨rfl, cs', eq, pairs⟩ := captured_of_capture size captured
    cases eq
    refine ⟨cs, pairs, ?_⟩
    split at rest
    · rename_i empty
      exact .idle (List.isEmpty_iff.1 empty) rest
    · split at rest
      · rename_i safe
        rcases exec_bind_eq_ok_iff.1 rest with ⟨_, t', said, off⟩ | ⟨cause, said, -⟩
        · cases said
          exact .safe safe off
        · cases said
      · exact ran_of_filter wellFormed rest
  · obtain ⟨-, cs', eq, -⟩ := captured_of_capture size captured
    cases eq

/-- The activity cell of a resource is none of its other ones. -/
theorem index_ne_of_nodup_cons {r : Resource} {activity : CellId}
    (nodup : (activity :: r.cells).Nodup) {cell : CellId} (mem : cell ∈ r.cells) :
    activity.index ≠ cell.index := by
  intro same
  have eq : activity = cell := by
    cases activity
    cases cell
    simp_all
  exact (List.nodup_cons.1 nodup).1 (eq ▸ mem)

/-- The cells of a resource are three different ones. -/
theorem index_ne_of_nodup {r : Resource} (nodup : r.cells.Nodup) :
    r.active.size.index ≠ r.spanStart.index ∧ r.active.size.index ≠ r.spanStop.index ∧
      r.spanStart.index ≠ r.spanStop.index := by
  simp only [cells, List.nodup_cons, List.mem_cons, List.not_mem_nil, or_false, not_or] at nodup
  have index {a b : CellId} (differs : a ≠ b) : a.index ≠ b.index := fun eq =>
    differs (by cases a; cases b; simp_all)
  exact ⟨index nodup.1.1, index nodup.1.2, index nodup.2.1⟩

/-- Storing the span writes two cells. -/
theorem storeSpan_spec {r : Resource} {bs : List ActivityBounds} {t t' : Store} {status : Status}
    (nodup : r.cells.Nodup) (ran : (r.storeSpan bs).exec t = .ok (status, t')) :
    t'.domains = t.domains ∧ t'.cells.values.size = t.cells.values.size ∧
      ∀ key, t'.cells.values.get? key =
        if key = r.spanStop.index then some (Span.ofBounds bs).stop
        else if key = r.spanStart.index then some (Span.ofBounds bs).start
        else t.cells.values.get? key := by
  obtain ⟨t₁, first, second⟩ : ∃ t₁, (writeCell r.spanStart (Span.ofBounds bs).start).exec t =
      .ok (.ok (), t₁) ∧ (writeCell r.spanStop (Span.ofBounds bs).stop).exec t₁ =
        .ok (status, t') := by
    rcases exec_bind_eq_ok_iff.1 ran with ⟨_, t₁, first, second⟩ | ⟨cause, first, -⟩
    · exact ⟨t₁, first, second⟩
    · cases (writeCell_spec first).1
  obtain ⟨-, domains₁, inside₁, values₁⟩ := writeCell_spec first
  obtain ⟨-, domains₂, inside₂, values₂⟩ := writeCell_spec second
  rw [values₁, Table.size_set] at inside₂
  have distinct := (index_ne_of_nodup nodup).2.2
  refine ⟨domains₂.trans domains₁, by rw [values₂, values₁, Table.size_set, Table.size_set],
    fun key => ?_⟩
  simp only [values₂, values₁, Table.get?_set, Table.size_set, inside₁, inside₂, if_true, eq_comm]

/-! ## What a run establishes -/

/-- The level stays within the capacity under every assignment within the domains. -/
def Enforced (xs : List Activity) (c : Capacity) (d : Domains) : Prop :=
  xs.length < 2 ^ 30 → ∀ a, d.Admits a → a.StaysWithin xs c

theorem Enforced.mono {xs : List Activity} {c : Capacity} {d d' : Domains} (h : Enforced xs c d)
    (narrows : d.Narrows d') : Enforced xs c d' :=
  fun few a admits => h few a (narrows.admits admits)

theorem enforced_of_cleared {xs : List Activity} {c : Capacity} {d : Domains}
    (h : xs.length < 2 ^ 30 → ∀ x ∈ xs, Cleared xs c d x) : Enforced xs c d := by
  rintro few a admits time ⟨x, mem, executes⟩
  exact h few x mem a admits time executes

namespace Captures

variable {xs : List Activity} {c : Capacity} {r : Resource} {d : Domains} {values : Table Int}
  {m : Nat} {s : Span} {cs : List Captured} (h : Captures xs c r d values m s cs)
include h

theorem length_le : cs.length ≤ xs.length := by simpa using h.subperm.length_le

theorem length_lt (few : xs.length < 2 ^ 30) : cs.length < 2 ^ 30 :=
  Nat.lt_of_le_of_lt h.length_le few

/-- A level that cannot leave the capacity respects it, however many activities there are. -/
theorem allows_of_isSafe (wellFormed : d.WellFormed)
    (safe : isSafe c (cs.map Captured.bounds) = true) {a : Assignment} (admits : d.Admits a)
    (time : Int) : c.Allows (a.level (cs.map Captured.activity) time) := by
  have allows := h.allows wellFormed admits
  have least (b : Captured) (mem : b ∈ cs)
      (positive : allPositive (cs.map Captured.bounds) = true) : 0 ≤ a.contribution time b.activity := by
    have height := List.all_eq_true.1 positive _ (List.mem_map_of_mem mem)
    have := (allows b mem).le_height
    simp only [ge_iff_le, decide_eq_true_eq] at height
    rw [Assignment.contribution_eq]
    split <;> omega
  have greatest (b : Captured) (mem : b ∈ cs)
      (negative : allNegative (cs.map Captured.bounds) = true) : a.contribution time b.activity ≤ 0 := by
    have height := List.all_eq_true.1 negative _ (List.mem_map_of_mem mem)
    have := (allows b mem).height_le
    simp only [decide_eq_true_eq] at height
    rw [Assignment.contribution_eq]
    split <;> omega
  simp only [isSafe, Bool.and_eq_true, Bool.or_eq_true, Bool.not_eq_true', decide_eq_true_eq] at safe
  rw [Profile.level_captured]
  constructor
  · intro limited
    obtain ⟨positive, low⟩ := safe.2.resolve_left (by simp [limited])
    have nonneg : 0 ≤ (cs.map fun b => a.contribution time b.activity).sum := by
      simpa using List.sum_le_sum (f := fun _ => (0 : Int)) fun b mem => least b mem positive
    omega
  · intro limited
    obtain ⟨negative, high⟩ := safe.1.resolve_left (by simp [limited])
    have nonpos : (cs.map fun b => a.contribution time b.activity).sum ≤ 0 := by
      simpa using List.sum_le_sum (g := fun _ => (0 : Int)) fun b mem => greatest b mem negative
    omega

/-- A level that cannot leave the capacity stays within it. -/
theorem within_of_isSafe (wellFormed : d.WellFormed) (few : xs.length < 2 ^ 30)
    (safe : isSafe c (cs.map Captured.bounds) = true) {a : Assignment} (admits : d.Admits a)
    (time : Int) : c.minimum ≤ a.level (cs.map Captured.activity) time ∧
      a.level (cs.map Captured.activity) time ≤ c.maximum := by
  have allows := h.allows wellFormed admits
  have level := Profile.level_mem_loadAt allows time
  have size := Profile.size_loadAt allows time
  have short : (cs.length : Int) < 1073741824 := by exact_mod_cast h.length_lt few
  obtain ⟨low, high⟩ := h.allows_of_isSafe wellFormed safe admits time
  simp only [Capacity.hasMinimum, Capacity.hasMaximum, decide_eq_true_eq] at low high
  simp only [Capacity.unlimitedMinimum, Capacity.unlimitedMaximum] at low high
  omega

theorem enforced_of_isSafe (wellFormed : d.WellFormed)
    (safe : isSafe c (cs.map Captured.bounds) = true) : Enforced xs c d :=
  enforced_of_cleared fun few => h.cleared_of_captured fun _ mem =>
    h.cleared_of_level wellFormed mem fun _ admits time _ =>
      h.within_of_isSafe wellFormed few safe admits time

/-- If all captured activities are fixed, the profile shows the level everywhere. -/
theorem cleared_of_isConsistent (wellFormed : d.WellFormed) {profile : Profile}
    (build : Profile.build (cs.map Captured.bounds) = .ok profile)
    (consistent : profile.isConsistent c.minimum c.maximum = true)
    (fixed : ∀ b ∈ cs, b.bounds.isFixed = true) : ∀ x ∈ xs, Cleared xs c d x :=
  h.cleared_of_captured fun _ mem =>
    h.cleared_of_level wellFormed mem fun _ admits _ executes =>
      h.level_of_isConsistent wellFormed build consistent admits mem executes fun b mem =>
        .inl (fixed b mem)

/-- An activity that the new span misses executes where all others are fixed or elsewhere. -/
theorem cleared_of_misses (wellFormed : d.WellFormed) {profile : Profile}
    (build : Profile.build (cs.map Captured.bounds) = .ok profile)
    (consistent : profile.isConsistent c.minimum c.maximum = true) {b : Captured} (mem : b ∈ cs)
    (misses : (Span.ofBounds (cs.map Captured.bounds)).Misses b.bounds.toBounds) :
    Cleared xs c d b.activity := by
  refine h.cleared_of_level wellFormed mem fun a admits time executes => ?_
  refine h.level_of_isConsistent wellFormed build consistent admits mem executes fun b' mem' => ?_
  have between := (h.allows wellFormed admits b mem).between executes
  cases fixed : b'.bounds.isFixed with
  | true => exact .inl rfl
  | false =>
    obtain ⟨contains, -, -⟩ := Span.ofBounds_spec (t := s) (cs.map Captured.bounds)
    have inside := contains _ (List.mem_map_of_mem mem') fixed
    obtain ⟨i1, i2⟩ := inside
    unfold Span.Misses at misses
    right
    omega

/-- The new span is a part of the old one. -/
theorem ofBounds_within (wellFormed : d.WellFormed) {b : Captured} (mem : b ∈ cs) :
    (Span.ofBounds (cs.map Captured.bounds)).Within s := by
  obtain ⟨-, -, within⟩ := Span.ofBounds_spec (t := s) (cs.map Captured.bounds)
  refine within ?_ fun x inside => ?_
  · obtain ⟨a, admits⟩ := wellFormed.exists_admits
    obtain ⟨i1, i2⟩ := (h.contains mem).1
    obtain ⟨s1, s2, s3, s4, -, s6, -⟩ := (h.allows wellFormed admits b mem).settled
    constructor <;> simp only [Span.none, Width.greatest, Width.least] <;>
      simp only [horizon] at s1 s2 <;> omega
  · obtain ⟨b', mem', rfl⟩ := List.mem_map.1 inside
    exact (h.contains mem').1

/-- With the new span stored, active set and domains fit together. -/
theorem fits_of_stored (wellFormed : d.WellFormed) {profile : Profile}
    (build : Profile.build (cs.map Captured.bounds) = .ok profile)
    (consistent : profile.isConsistent c.minimum c.maximum = true) {b : Captured} (mem : b ∈ cs)
    {values' : Table Int} (size : values'.get? r.active.size.index = some (m : Int))
    (start : values'.get? r.spanStart.index =
      some (Span.ofBounds (cs.map Captured.bounds)).start)
    (stop : values'.get? r.spanStop.index = some (Span.ofBounds (cs.map Captured.bounds)).stop) :
    Fits xs c r d values' m (Span.ofBounds (cs.map Captured.bounds)) := by
  refine { h.toFits with
    size, start, stop
    shape := fun k x here => ?_ }
  rcases h.shape k x here with ⟨has, -⟩ | ⟨done, cleared⟩
  · obtain ⟨b, mem, rfl⟩ := h.exists_captured here has
    obtain ⟨_, -, here', known⟩ := h.exists_key mem
    obtain ⟨v, row, same, -, -, -, isFixed⟩ := Activity.bounds_eq_ok known
    obtain ⟨moving, fixed, -⟩ := Span.ofBounds_spec (t := s) (cs.map Captured.bounds)
    have listed := List.mem_map_of_mem (f := Captured.bounds) mem
    cases settled : b.bounds.isFixed with
    | false => exact .inl ⟨has, v, row, same ▸ moving _ listed settled⟩
    | true =>
      rcases fixed _ listed settled with contains | misses
      · exact .inl ⟨has, v, row, same ▸ contains⟩
      · refine .inr ⟨isDone_eq_true_iff.2 ⟨v, true, row, settled ▸ isFixed, .inr ⟨rfl, same ▸ misses⟩⟩,
          h.cleared_of_misses wellFormed build consistent mem misses⟩
  · exact .inr ⟨isDone_mono wellFormed wellFormed (.refl d) (h.ofBounds_within wellFormed mem) done,
      cleared⟩

/-- If all activities are fixed, so are the captured bounds. -/
theorem isFixed_of_mem (fixed : ∀ x ∈ xs, x.isFixed d = .ok true) {b : Captured} (mem : b ∈ cs) :
    b.bounds.isFixed = true := by
  obtain ⟨k, -, here, known⟩ := h.exists_key mem
  obtain ⟨v, -, -, -, -, -, isFixed⟩ := Activity.bounds_eq_ok known
  rw [fixed _ (h.mem_activities here)] at isFixed
  simpa using isFixed.symm

end Captures

/-! ## The walk -/

section Walk

variable {xs : List Activity} {c : Capacity} {r : Resource} {d : Domains} {values : Table Int}
  {m : Nat} {s : Span}

/-- An activity that lies within the span and is done executes nowhere. -/
theorem cleared_of_covered {x : Activity} (covered : Covered d s x) (done : isDone d s x = .ok true) :
    Cleared xs c d x := by
  intro a admits time executes
  obtain ⟨le, lt⟩ := covered.within admits executes
  exact absurd executes (idle_of_isDone done admits le lt)

/-- After the walk the active activities are not done, and those that were taken out are. -/
theorem fits_of_sweep (h : Fits xs c r d values m s) {before after : Cells} {active : SparseSet}
    (same : before.values = values) (nodup : r.cells.Nodup)
    (swept : SparseSet.sweep (fun index => do isDone d s (← r.activities.read index)) m r.active
      before = .ok (active, after)) :
    active.size = r.active.size ∧ before.Evolves [r.active.size] after ∧ ∃ m', m' ≤ m ∧
      Fits xs c { r with active } d after.values m' s ∧
      (∀ k x, r.activities.get? k = some x → active.Has m' k → isDone d s x = .ok false) ∧
      ∀ k, m ≤ k → ∀ i, active.Has k i ↔ r.active.Has k i := by
  subst same
  obtain ⟨valid, size, evolves, m', le, size', left, all, larger⟩ := SparseSet.sweep_spec h.valid
    h.size h.le (Nat.le_refl m) (fun j i above below => by omega) swept
  have decided {k : Nat} {x : Activity} {answer : Bool} (here : r.activities.get? k = some x) :
      (do isDone d s (← r.activities.read k)) = .ok answer ↔ isDone d s x = .ok answer := by
    rw [Table.read_eq_ok_iff.2 here]
    rfl
  simp only [cells, List.nodup_cons, List.mem_cons, List.not_mem_nil, or_false, not_or] at nodup
  refine ⟨size, evolves, m', le, { h with
    valid := valid
    size := by rw [size]; exact size'
    le := Nat.le_trans le h.le
    start := ?_
    stop := ?_
    shape := fun k x here => ?_ }, fun k x here has => (decided here).1 ((left k).1 has).2, larger⟩
  · rw [← h.start]
    exact evolves.others r.spanStart (by simpa using Ne.symm nodup.1.1)
  · rw [← h.stop]
    exact evolves.others r.spanStop (by simpa using Ne.symm nodup.1.2)
  · rcases h.shape k x here with ⟨has, covered⟩ | done
    · rcases all k has with open' | done
      · exact .inl ⟨(left k).2 ⟨has, open'⟩, covered⟩
      · have done := (decided here).1 done
        exact .inr ⟨done, cleared_of_covered covered done⟩
    · exact .inr done

/-- How a run goes: the walk leaves `m'` of the `m` active activities, and these are captured before
the run comes to one of its ends. -/
structure Course (xs : List Activity) (c : Capacity) (r : Resource) (context : Context) (u : Store)
    (m : Nat) (s : Span) (active : SparseSet) (cells : Cells) (m' : Nat) (cs : List Captured)
    (status : Status) (u' : Store) : Prop where
  size : active.size = r.active.size
  evolves : u.cells.Evolves [r.active.size] cells
  le : m' ≤ m
  larger : ∀ k, m ≤ k → ∀ i, active.Has k i ↔ r.active.Has k i
  captures : Captures xs c { r with active } u.domains cells.values m' s cs
  propagated : (({ r with active } : Resource).propagate context).exec { u with cells } =
    .ok (status, u')
  ends : Ran { r with active } context { u with cells } cs status u'

theorem course_of_run {r' : Resource} {context : Context} {u u' : Store} {status : Status}
    (wellFormed : u.domains.WellFormed) (fits : Fits xs c r u.domains u.cells.values m s)
    (nodup : (context.activity :: r.cells).Nodup)
    (ran : (run context r).run u = .ok ((r', status), u')) :
    ∃ active cells m' cs, r' = { r with active } ∧
      Course xs c r context u m s active cells m' cs status u' := by
  obtain ⟨start, stop, n, t, readStart, readStop, counted, dropped, propagated⟩ := run_spec ran
  obtain ⟨active, cells, swept, rfl, rfl⟩ := dropDone_spec dropped
  have startEq := Cells.read_eq_ok_iff.1 readStart
  have stopEq := Cells.read_eq_ok_iff.1 readStop
  rw [fits.start] at startEq
  rw [fits.stop] at stopEq
  rw [SparseSet.length_eq_ok fits.size] at counted
  cases startEq
  cases stopEq
  cases counted
  obtain ⟨size, evolves, m', le, fits', fresh, larger⟩ :=
    fits_of_sweep fits rfl (List.nodup_cons.1 nodup).2 swept
  obtain ⟨cs, captured, ends⟩ := ran_of_propagate (r := { r with active })
    (s := { u with cells }) wellFormed fits'.size propagated
  exact ⟨active, cells, m', cs, rfl, size, evolves, le, larger, { fits' with fresh, captured },
    propagated, ends⟩

namespace Course

variable {context : Context} {u u' : Store} {active : SparseSet} {cells : Cells} {m' : Nat}
  {cs : List Captured} {status : Status}
  (h : Course xs c r context u m s active cells m' cs status u')
include h

theorem nodup (nodup : (context.activity :: r.cells).Nodup) :
    (context.activity :: ({ r with active } : Resource).cells).Nodup := by
  simpa [Resource.cells, h.size] using nodup

/-- The propagation leaves the number of active activities alone. -/
theorem left (wellFormed : u.domains.WellFormed) (nodup : (context.activity :: r.cells).Nodup) :
    u'.cells.values.get? active.size.index = some (m' : Int) := by
  have quiet : Evolves [context.activity, r.spanStart, r.spanStop]
      (({ r with active } : Resource).propagate context) :=
    (performs_propagate _ (by simp) (by simp) (by simp)).evolves
  have others := (quiet { u with cells } _ _ wellFormed h.propagated).cells.others active.size (by
    have distinct := h.nodup nodup
    simp only [Resource.cells, List.nodup_cons, List.mem_cons, List.not_mem_nil, or_false,
      not_or] at distinct ⊢
    exact ⟨Ne.symm distinct.1.1, distinct.2.1.1, distinct.2.1.2⟩)
  rw [others]
  exact h.captures.size

end Course

end Walk

/-! ## The guarantee -/

/-- What is known about a resource: active set, span and domains fit together, and it is switched
off only when the level is within the capacity whatever happens. -/
def Standing (xs : List Activity) (c : Capacity) (activity : CellId) (q : Rule) (d : Domains)
    (values : Table Int) : Prop :=
  ∃ r m s, q = .resource r ∧ Fits xs c r d values m s ∧ activity.index < values.size ∧
    (values.get? activity.index = some 0 → Enforced xs c d)

/-- Once all activities are fixed, the level stays within the capacity. -/
def guarantee (xs : List Activity) (c : Capacity) : Guarantee where
  Accepts d := (∀ x ∈ xs, x.isFixed d = .ok true) → Enforced xs c d
  Invariant := Standing xs c
  Allowed _ _ := True
  Watches v event := ∃ x ∈ xs, ∃ watch ∈ x.watches, watch.Tells v event

variable {xs : List Activity} {c : Capacity}

theorem Standing.mono {activity : CellId} {q : Rule} {d d' : Domains} {values values' : Table Int}
    (h : Standing xs c activity q d values) (wellFormed : d.WellFormed)
    (wellFormed' : d'.WellFormed) (narrows : d.Narrows d')
    (same : ∀ cell ∈ activity :: q.cells, values'.get? cell.index = values.get? cell.index) :
    Standing xs c activity q d' values' := by
  obtain ⟨r, m, s, rfl, fits, inside, off⟩ := h
  have activityCell := same activity (by simp)
  refine ⟨r, m, s, rfl, fits.mono wellFormed wellFormed' narrows fun cell mem =>
    same cell (List.mem_cons_of_mem _ mem), ?_, fun zero =>
    (off (by rw [← activityCell, zero])).mono narrows⟩
  obtain ⟨flag, known⟩ := Table.exists_get? inside
  rw [← activityCell] at known
  exact Table.lt_size_of_get? known

/-- Switching the propagator off changes nothing but its cell, so the resource still stands. -/
theorem Fits.standing_of_setActive {r : Resource} {context : Context} {u t u' : Store} {m : Nat}
    {s : Span} {status : Status} (h : Fits xs c r u.domains u.cells.values m s)
    (wellFormed : u.domains.WellFormed) (nodup : (context.activity :: r.cells).Nodup)
    (inside : context.activity.index < u.cells.values.size) (domains : t.domains = u.domains)
    (cells : t.cells = u.cells) (enforced : Enforced xs c u.domains)
    (ran : (setActive context false).exec t = .ok (status, u')) :
    Standing xs c context.activity (.resource r) u'.domains u'.cells.values := by
  obtain ⟨-, domains', -, values⟩ := writeCell_spec ran
  rw [domains] at domains'
  rw [cells] at values
  refine ⟨r, m, s, rfl, ?_, ?_, fun _ => domains' ▸ enforced⟩
  · rw [domains', values]
    exact h.mono wellFormed wellFormed (.refl _) fun cell mem => by
      rw [Table.get?_set, if_neg (index_ne_of_nodup_cons nodup mem)]
  · rw [values, Table.size_set]
    exact inside

/-- What a run leaves: the resource still stands, and if the run succeeds, the level is within the
capacity once all activities are fixed. -/
theorem standing_of_ran {r : Resource} {context : Context} {u u' : Store} {m : Nat} {s : Span}
    {cs : List Captured} {status : Status} (wellFormed : u.domains.WellFormed)
    (nodup : (context.activity :: r.cells).Nodup)
    (h : Captures xs c r u.domains u.cells.values m s cs)
    (inside : context.activity.index < u.cells.values.size)
    (off : u.cells.values.get? context.activity.index = some 0 → Enforced xs c u.domains)
    (ran : Ran r context u cs status u') (wellFormed' : u'.domains.WellFormed) :
    Standing xs c context.activity (.resource r) u'.domains u'.cells.values ∧
      (status = .ok () → (∀ x ∈ xs, x.isFixed u.domains = .ok true) →
        Enforced xs c u.domains) := by
  have apart : ∀ cell ∈ r.cells, context.activity.index ≠ cell.index :=
    fun cell mem => index_ne_of_nodup_cons nodup mem
  have same : r.capacity = c := h.capacity
  have switched {t : Store} (domains : t.domains = u.domains) (cells : t.cells = u.cells)
      (enforced : Enforced xs c u.domains)
      (ran : (setActive context false).exec t = .ok (status, u')) :
      Standing xs c context.activity (.resource r) u'.domains u'.cells.values ∧
        (status = .ok () → (∀ x ∈ xs, x.isFixed u.domains = .ok true) →
          Enforced xs c u.domains) :=
    ⟨h.toFits.standing_of_setActive wellFormed nodup inside domains cells enforced ran,
      fun _ _ => enforced⟩
  have kept : Standing xs c context.activity (.resource r) u.domains u.cells.values :=
    ⟨r, m, s, rfl, h.toFits, inside, off⟩
  cases ran with
  | idle empty ran =>
    subst empty
    exact switched rfl rfl (enforced_of_cleared fun _ => h.cleared_of_captured (by simp)) ran
  | safe safe ran =>
    exact switched (t := u.say .capacitySafe) rfl rfl
      (h.enforced_of_isSafe wellFormed (same ▸ safe)) ran
  | conflict failed unchanged =>
    subst unchanged
    exact ⟨kept, fun ok => absurd ok failed⟩
  | settled profile build consistent fixed ran =>
    exact switched rfl rfl (enforced_of_cleared fun _ =>
      h.cleared_of_isConsistent wellFormed build (same ▸ consistent) fixed) ran
  | failed failed evolves =>
    refine ⟨kept.mono wellFormed wellFormed' evolves.domains.narrows fun cell _ => ?_,
      fun ok => absurd ok failed⟩
    rw [evolves.cells.values_eq]
  | stored profile build consistent moving t evolves _ store =>
    obtain ⟨b, mem, open'⟩ := moving
    obtain ⟨domains, size, row⟩ := storeSpan_spec (List.nodup_cons.1 nodup).2 store
    rw [evolves.cells.values_eq] at size row
    have distinct : r.active.size.index ≠ r.spanStart.index ∧
        r.active.size.index ≠ r.spanStop.index ∧ r.spanStart.index ≠ r.spanStop.index :=
      index_ne_of_nodup (List.nodup_cons.1 nodup).2
    have stored : Fits xs c r u.domains u'.cells.values m
        (Span.ofBounds (cs.map Captured.bounds)) :=
      h.fits_of_stored wellFormed build (same ▸ consistent) mem
      (by rw [row, if_neg distinct.2.1, if_neg distinct.1, h.size])
      (by rw [row, if_neg distinct.2.2, if_pos rfl]) (by rw [row, if_pos rfl])
    have narrows : u.domains.Narrows u'.domains := domains ▸ evolves.domains.narrows
    refine ⟨⟨r, m, _, rfl, stored.mono wellFormed wellFormed' narrows fun _ _ => rfl, ?_, fun zero => ?_⟩,
      fun _ all => ?_⟩
    · rw [size]
      exact inside
    · rw [row, if_neg (apart _ (by simp [cells])), if_neg (apart _ (by simp [cells]))] at zero
      exact (off zero).mono narrows
    · rw [h.isFixed_of_mem all mem] at open'
      cases open'

/-- A run keeps what is known about a resource, also for the states of earlier checkpoints. -/
theorem standing_of_run {context : Context} {q q' : Rule} {status : Status} {st st' : Store}
    (ran : (Propagator.run context q).run st = .ok ((q', status), st'))
    (wellFormed : st.domains.WellFormed) (nodup : (context.activity :: q.cells).Nodup)
    (standing : Standing xs c context.activity q st.domains st.cells.values) :
    Standing xs c context.activity q' st'.domains st'.cells.values ∧
      q'.sizes = q.sizes ∧ q.Older st.cells.values st'.cells.values ∧
      (∀ d values, Standing xs c context.activity q d values → q.Older values st.cells.values →
        Standing xs c context.activity q' d values) ∧
      (status = .ok () → (∀ x ∈ xs, x.isFixed st.domains = .ok true) →
        Enforced xs c st.domains) := by
  have after := (Rule.evolves_of_run wellFormed ran).2.wellFormed
  obtain ⟨r, m, s, rfl, fits, inside, off⟩ := standing
  obtain ⟨r', rfl, lifted⟩ := Rule.lift_spec ran
  obtain ⟨active, cells, m', cs, rfl, course⟩ := course_of_run wellFormed fits nodup lifted
  have activityCell : cells.values.get? context.activity.index =
      st.cells.values.get? context.activity.index :=
    course.evolves.others context.activity fun mem => (List.nodup_cons.1 nodup).1 (by
      simp only [List.mem_singleton] at mem
      simp [Rule.cells, Resource.cells, mem])
  obtain ⟨standing, accepts⟩ := standing_of_ran wellFormed (course.nodup nodup)
    (u := { st with cells }) course.captures (by rw [course.evolves.size]; exact inside)
    (fun zero => off (activityCell ▸ zero)) course.ends after
  refine ⟨standing, by simp [Rule.sizes, course.size], ?_, ?_, accepts⟩
  · intro cell mem
    simp only [Rule.sizes, List.mem_singleton] at mem
    subst mem
    rw [← course.size, course.left wellFormed nodup, course.size, fits.size]
    simpa using course.le
  · rintro d values ⟨r₀, m₀, s₀, same, fits₀, inside₀, off₀⟩ older
    cases same
    have more := older r.active.size (by simp [Rule.sizes])
    rw [fits.size, fits₀.size] at more
    have more : m ≤ m₀ := by simpa using more
    refine ⟨_, m₀, s₀, rfl, { fits₀ with
      valid := course.captures.valid
      size := by rw [course.size]; exact fits₀.size
      shape := fun k x here => ?_ }, inside₀, off₀⟩
    rw [course.larger m₀ more k]
    exact fits₀.shape k x here

theorem staysWithin_congr {a a' : Assignment}
    (same : ∀ x ∈ xs, a.interval x.interval = a'.interval x.interval ∧
      ∀ t, a.contribution t x = a'.contribution t x) (h : a'.StaysWithin xs c) :
    a.StaysWithin xs c := by
  rintro time ⟨x, mem, executes⟩
  have level : a.level xs time = a'.level xs time := by
    unfold Assignment.level
    rw [List.map_congr_left fun x mem => (same x mem).2 time]
  rw [level]
  exact h time ⟨x, mem, by rw [← (same x mem).1]; exact executes⟩

/-- A resource gives its guarantee. -/
theorem lawful (xs : List Activity) (c : Capacity) : (guarantee xs c).Lawful where
  invariant_mono := Standing.mono
  run ran wellFormed nodup standing _ := standing_of_run ran wellFormed nodup standing
  accepts_of_idle := by
    rintro activity q d values ⟨r, m, s, -, -, -, off⟩ - zero -
    exact off zero
  accepts_or_watches := by
    rintro activity q d d' values events ⟨r, m, s, -, fits, -, -⟩ - - narrows reports accepts
    by_cases told : ∃ v event, (v, event) ∈ events ∧ ∃ x ∈ xs, ∃ watch ∈ x.watches,
        watch.Tells v event
    · exact .inr told
    · refine .inl fun fixed => (accepts fun x mem => ?_).mono narrows
      rcases Activity.isFixed_eq_or_tells narrows reports (fits.known x mem).1
        (fits.known x mem).2 with same | ⟨v, event, mem', tells⟩
      · rw [← same]
        exact fixed x mem
      · exact absurd ⟨v, event, mem', x, mem, tells⟩ told
  accepts_of_narrows := by
    intro d d' wellFormed wellFormed' narrows accepts fixed few a admits
    obtain ⟨a', admits'⟩ := wellFormed'.exists_admits
    have fixed' (x : Activity) (mem : x ∈ xs) : x.isFixed d' = .ok true :=
      Activity.isFixed_of_narrows wellFormed wellFormed' narrows (fixed x mem)
    refine staysWithin_congr (fun x mem => ?_) (accepts fixed' few a' admits')
    exact Activity.contribution_eq_of_isFixed wellFormed admits (narrows.admits admits')
      (fixed x mem)

end Resource

end Scheduling
