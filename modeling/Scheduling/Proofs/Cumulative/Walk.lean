import Scheduling.Proofs.Cumulative.Window
import Scheduling.Proofs.Scope

/-!
# Filtering with profiles that agree

The rules for an activity walk along the segments between its earliest start and its latest end and
stop there. On two profiles that agree between these times they do the same.

Results:
* `TimeTable.pushStart_congr`, `TimeTable.pushEnd_congr`, `TimeTable.fitFrom_congr`: the walks.
* `TimeTable.rests_filter`: an activity that rests does so next to another profile that agrees with
  the first one, also if fewer rules apply.
-/

namespace Scheduling

open Propagation

/-- Every rule of the second kind is one of the first. -/
def Rules.Include (rules rules' : Rules) : Prop :=
  (rules'.heights = true → rules.heights = true) ∧ (rules'.needed = true → rules.needed = true)

namespace TimeTable

variable {p p' : Profile} {c : Capacity}

/-- A walk upwards that is not at its end is at the start of a segment. -/
theorem exists_stretch_of_succ (ascending : p.points.toList.Pairwise fun q r => q.time < r.time)
    {k left : Nat} {q : TimePoint} (here : p.points.toList[k]? = some q)
    (within : k + (left + 1) = p.segments) : ∃ next, p.Stretch k q next := by
  obtain ⟨q', next, stretch⟩ := Profile.exists_stretch ascending (show k < p.segments by omega)
  obtain rfl : q' = q := Option.some.inj (stretch.getElem?.symm.trans here)
  exact ⟨next, stretch⟩

/-! ## Starts and ends -/

theorem loadWithout_of_stretch {t : TimeTable} {k : Nat} {q : TimePoint} {next : Int}
    (stretch : t.profile.Stretch k q next) (a : ActivityBounds) :
    t.loadWithout a k = q.load.without (a.contributionAt q.time) := by
  simp only [loadWithout, stretch.point, bind, Except.bind]

/-- Whether a segment is overloaded does not depend on its number. -/
theorem isOverloadedWith_congr {k k' : Nat} {q : TimePoint} {next : Int}
    (stretch : p.Stretch k q next) (stretch' : p'.Stretch k' q next) (a : ActivityBounds) :
    (⟨p, c⟩ : TimeTable).isOverloadedWith a k = (⟨p', c⟩ : TimeTable).isOverloadedWith a k' := by
  have left := loadWithout_of_stretch (t := ⟨p, c⟩) stretch a
  have right := loadWithout_of_stretch (t := ⟨p', c⟩) stretch' a
  simp only [isOverloadedWith, left, right]

section Bounds

variable {a : ActivityBounds} (settled : a.toBounds.Settled)
include settled

/-- From the latest end on no start is pushed. -/
theorem pushStart_of_le (ascending : p.points.toList.Pairwise fun q r => q.time < r.time)
    {left k : Nat} (here : ∃ q, p.points.toList[k]? = some q ∧ q.time = a.endMax)
    (within : k + left = p.segments) (start : Int) :
    (⟨p, c⟩ : TimeTable).pushStart a left k start = .ok start := by
  obtain ⟨s1, s2, s3, s4, s5, s6, s7, s8, s9, s10, s11, s12⟩ := settled
  obtain ⟨q, there, last⟩ := here
  cases left with
  | zero => rfl
  | succ left =>
    obtain ⟨next, stretch⟩ := exists_stretch_of_succ ascending there within
    unfold pushStart
    split
    · rfl
    · rename_i before
      simp only [stretch.span, bind, Except.bind]
      rw [if_pos (by omega)]
      rfl

/-- Down to the earliest start no end is pushed. -/
theorem pushEnd_of_le (ascending : p.points.toList.Pairwise fun q r => q.time < r.time) {k : Nat}
    (here : ∃ q, p.points.toList[k]? = some q ∧ q.time = a.startMin) (stop : Int) :
    (⟨p, c⟩ : TimeTable).pushEnd a k stop = .ok stop := by
  obtain ⟨s1, s2, s3, s4, s5, s6, s7, s8, s9, s10, s11, s12⟩ := settled
  obtain ⟨q, there, first⟩ := here
  cases k with
  | zero => rfl
  | succ k =>
    have inside := (List.getElem?_eq_some_iff.1 there).1
    have within : k < p.segments := by
      rw [Profile.segments, Profile.size_eq_length]
      omega
    obtain ⟨q', next, stretch⟩ := Profile.exists_stretch ascending within
    obtain ⟨r, there', rfl⟩ := stretch.exists_next
    rw [there] at there'
    cases there'
    unfold pushEnd
    split
    · rfl
    · rename_i after
      simp only [stretch.span, bind, Except.bind]
      rw [if_pos (by omega)]
      rfl

variable (agree : p.Agree p' a.startMin a.endMax)
include agree

theorem earliestStart_congr :
    (⟨p, c⟩ : TimeTable).earliestStart a = (⟨p', c⟩ : TimeTable).earliestStart a := by
  refine agree.walk (P := fun left left' k k' => ∀ start,
    (⟨p, c⟩ : TimeTable).pushStart a left k start =
      (⟨p', c⟩ : TimeTable).pushStart a left' k' start) ?_ ?_ a.startMin
  · intro left left' k k' meet within within' start
    rw [pushStart_of_le settled agree.ascending meet.here within,
      pushStart_of_le settled agree.ascending' meet.here' within']
  · intro left left' k k' q next _ _ stretch stretch' ih start
    simp only [pushStart, stretch.span, stretch'.span, bind, Except.bind,
      isOverloadedWith_congr (c := c) stretch stretch' a, ih]

theorem pushEnd_congr {k k' : Nat} {x stop : Int} (meet : p.Meet p' k k' x)
    (le : a.startMin ≤ x) (upTo : x ≤ a.endMax) : (⟨p, c⟩ : TimeTable).pushEnd a k stop =
      (⟨p', c⟩ : TimeTable).pushEnd a k' stop := by
  induction k generalizing k' x stop with
  | zero =>
    rcases Int.lt_or_eq_of_le le with inside | rfl
    · obtain ⟨i, -, -, eq, -⟩ := agree.exists_previous meet inside upTo
      omega
    · rw [pushEnd_of_le settled agree.ascending meet.here,
        pushEnd_of_le settled agree.ascending' meet.here']
  | succ k ih =>
    rcases Int.lt_or_eq_of_le le with inside | rfl
    · obtain ⟨i, i', q, eq, rfl, le', lt, stretch, stretch', meet'⟩ :=
        agree.exists_previous meet inside upTo
      obtain rfl : i = k := by omega
      have step (stop : Int) : (⟨p, c⟩ : TimeTable).pushEnd a i stop =
          (⟨p', c⟩ : TimeTable).pushEnd a i' stop := ih meet' le' (by omega)
      simp only [pushEnd, stretch.span, stretch'.span, bind, Except.bind,
        isOverloadedWith_congr (c := c) stretch stretch' a, step]
    · rw [pushEnd_of_le settled agree.ascending meet.here,
        pushEnd_of_le settled agree.ascending' meet.here']

theorem latestEnd_congr :
    (⟨p, c⟩ : TimeTable).latestEnd a = (⟨p', c⟩ : TimeTable).latestEnd a :=
  pushEnd_congr settled agree agree.meet_last (Int.le_of_lt agree.lt) (Int.le_refl _)

end Bounds

/-! ## Heights and lengths -/

section Fit

variable {a : ActivityBounds} {low high : Int}

theorem fitFrom_of_le (ascending : p.points.toList.Pairwise fun q r => q.time < r.time)
    {left k : Nat} (here : ∃ q, p.points.toList[k]? = some q ∧ q.time = a.endMax)
    (within : k + left = p.segments) (f : Fit) :
    (⟨p, c⟩ : TimeTable).fitFrom a a.startMin a.endMax low high left k f = .ok f := by
  obtain ⟨q, there, last⟩ := here
  cases left with
  | zero => rfl
  | succ left =>
    obtain ⟨next, stretch⟩ := exists_stretch_of_succ ascending there within
    simp only [fitFrom, stretch.span, bind, Except.bind]
    rw [if_pos (by omega)]
    rfl

theorem fitFrom_congr (agree : p.Agree p' a.startMin a.endMax) :
    (⟨p, c⟩ : TimeTable).fitFrom a a.startMin a.endMax low high
        (p.segments - p.segmentContaining a.startMin) (p.segmentContaining a.startMin) ⟨none, 0, 0⟩ =
      (⟨p', c⟩ : TimeTable).fitFrom a a.startMin a.endMax low high
        (p'.segments - p'.segmentContaining a.startMin) (p'.segmentContaining a.startMin)
        ⟨none, 0, 0⟩ := by
  refine agree.walk (P := fun left left' k k' => ∀ f,
    (⟨p, c⟩ : TimeTable).fitFrom a a.startMin a.endMax low high left k f =
      (⟨p', c⟩ : TimeTable).fitFrom a a.startMin a.endMax low high left' k' f) ?_ ?_ ⟨none, 0, 0⟩
  · intro left left' k k' meet within within' f
    rw [fitFrom_of_le agree.ascending meet.here within,
      fitFrom_of_le agree.ascending' meet.here' within']
  · intro left left' k k' q next _ _ stretch stretch' ih f
    have load := loadWithout_of_stretch (t := ⟨p, c⟩) stretch a
    have load' := loadWithout_of_stretch (t := ⟨p', c⟩) stretch' a
    simp only [fitFrom, stretch.span, stretch'.span, bind, Except.bind, load, load', ih]

end Fit

/-! ## The rules for an activity -/

theorem rests_coverFrom_of_le {scope : List Watched} {d : Domains} {b : Captured} {rules : Rules}
    (ascending : p.points.toList.Pairwise fun q r => q.time < r.time) {left k : Nat}
    (here : ∃ q, p.points.toList[k]? = some q ∧ q.time = b.bounds.endMax)
    (within : k + left = p.segments) :
    Rests [] scope d ((⟨p, c⟩ : TimeTable).coverFrom b rules left k) () := by
  obtain ⟨q, there, last⟩ := here
  cases left with
  | zero => exact rests_pure _
  | succ left =>
    obtain ⟨next, stretch⟩ := exists_stretch_of_succ ascending there within
    refine rests_liftM_bind_iff.2 ⟨_, stretch.span, ?_⟩
    simp only
    rw [if_pos (by omega)]
    exact rests_pure _

section Filter

variable {scope : List Watched} {d : Domains} {b : Captured} {rules rules' : Rules}
  (mem : b.activity.scope ⊆ scope) (wellFormed : d.WellFormed)
  (agree : p.Agree p' b.bounds.startMin b.bounds.endMax)
include mem wellFormed agree

/-- The segments from the earliest start to the latest end ask for nothing. -/
theorem rests_cover (includes : rules.Include rules')
    (h : Rests [] scope d ((⟨p, c⟩ : TimeTable).cover b rules) ()) :
    Rests [] scope d ((⟨p', c⟩ : TimeTable).cover b rules') () := by
  refine agree.walk (P := fun left left' k k' =>
    Rests [] scope d ((⟨p, c⟩ : TimeTable).coverFrom b rules left k) () →
      Rests [] scope d ((⟨p', c⟩ : TimeTable).coverFrom b rules' left' k') ()) ?_ ?_ h
  · intro left left' k k' meet _ within' _
    exact rests_coverFrom_of_le agree.ascending' meet.here' within'
  · intro left left' k k' q next _ before stretch stretch' ih rests
    have load := loadWithout_of_stretch (t := ⟨p, c⟩) stretch b.bounds
    have load' := loadWithout_of_stretch (t := ⟨p', c⟩) stretch' b.bounds
    unfold coverFrom at rests ⊢
    obtain ⟨_, span, rests⟩ := rests_liftM_bind_iff.1 rests
    obtain rfl : (q.time, next) = _ := Except.ok.inj (stretch.span.symm.trans span)
    simp only at rests
    rw [if_neg (by omega)] at rests
    obtain ⟨_, point, rests⟩ := rests_liftM_bind_iff.1 rests
    obtain rfl : q = _ := Except.ok.inj (stretch.point.symm.trans point)
    obtain ⟨others, without, rests⟩ := rests_liftM_bind_iff.1 rests
    rw [load, ← load'] at without
    refine rests_liftM_bind_iff.2 ⟨_, stretch'.span, ?_⟩
    simp only
    rw [if_neg (by omega)]
    refine rests_liftM_bind_iff.2 ⟨_, stretch'.point, rests_liftM_bind_iff.2 ⟨_, without, ?_⟩⟩
    have walks (t : TimeTable) (rules : Rules) (left k : Nat) :
        Local [] scope (t.coverFrom b rules left k) := local_coverFrom t mem rules left k
    split
    · rename_i certain
      rw [if_pos certain] at rests
      obtain ⟨tightened, rests⟩ := (rests_when_iff (local_tightenHeight mem _ _)
        (fun _ => walks _ _ _ _) wellFormed).1 rests
      exact (rests_when_iff (local_tightenHeight mem _ _) (fun _ => walks _ _ _ _) wellFormed).2
        ⟨fun rule => tightened (includes.1 rule), ih rests⟩
    · rename_i uncertain
      rw [if_neg uncertain] at rests
      obtain ⟨forced, rests⟩ := (rests_when_iff (local_force mem _ _ _ _)
        (fun _ => walks _ _ _ _) wellFormed).1 rests
      refine (rests_when_iff (local_force mem _ _ _ _) (fun _ => walks _ _ _ _) wellFormed).2
        ⟨fun rule => forced ?_, ih rests⟩
      simp only [Bool.and_eq_true] at rule ⊢
      exact ⟨⟨includes.2 rule.1.1, rule.1.2⟩, rule.2⟩

omit wellFormed in
/-- What the segments say about height and length asks for nothing. -/
theorem rests_fit (known : b.activity.bounds d = .ok b.bounds)
    (h : Rests [] scope d ((⟨p, c⟩ : TimeTable).fit b) ()) :
    Rests [] scope d ((⟨p', c⟩ : TimeTable).fit b) () := by
  obtain ⟨v, row, same, lower, upper, -, -⟩ := Activity.bounds_eq_ok known
  have start : v.startMin = b.bounds.startMin := by rw [same]
  have stop : v.endMax = b.bounds.endMax := by rw [same]
  have interval (d' : Domains) (agrees : d.Agrees scope d') :
      d'.interval b.activity.interval = .ok v :=
    agrees.interval _ v (mem (by simp [Activity.scope])) row
  have height : .integer b.activity.height.base ∈ scope := mem (by simp [Activity.scope])
  have low (d' : Domains) (agrees : d.Agrees scope d') :
      b.activity.height.lower d' = .ok b.bounds.heightMin := agrees.bound height lower
  have high (d' : Domains) (agrees : d.Agrees scope d') :
      b.activity.height.upper d' = .ok b.bounds.heightMax := agrees.bound height upper
  unfold fit at h ⊢
  simp only [Propagation.interval, Propagation.lower, Propagation.upper] at h ⊢
  rw [rests_inspect_bind_iff interval, rests_inspect_bind_iff low, rests_inspect_bind_iff high,
    start, stop] at h ⊢
  rw [← fitFrom_congr agree]
  exact h

omit agree in
/-- The rules for an activity that is not absent rest exactly if all those that apply do. -/
theorem rests_filter_iff {t : TimeTable} {v : Interval} (row : d.interval b.activity.interval = .ok v)
    (there : v.isAbsent = false) (room : b.bounds.startMin < b.bounds.endMax) :
    Rests [] scope d (t.filter rules b) () ↔ Rests [] scope d (t.place b) () ∧
      ((rules.heights || rules.needed) = true → Rests [] scope d (t.cover b rules) ()) ∧
      ((rules.heights && !b.bounds.hasMandatoryPart && decide (b.bounds.lengthMin > 0)) = true →
        v.isPresent = true → Rests [] scope d (t.fit b) ()) := by
  have interval : .interval b.activity.interval ∈ scope := mem (by simp [Activity.scope])
  have read (d' : Domains) (agrees : d.Agrees scope d') : d'.interval b.activity.interval = .ok v :=
    agrees.interval _ v interval row
  have last : Local [] scope (Propagation.interval b.activity.interval >>= fun v =>
      if v.isPresent then t.fit b else pure ()) :=
    local_bind (local_interval interval) fun _ => local_ite (local_fit t mem) (local_pure _)
  have cover : Local [] scope (t.cover b rules) := local_coverFrom t mem _ _ _
  unfold filter
  rw [if_neg (by omega), rests_seq_iff (local_place t mem) (fun _ => local_bind
    (local_interval interval) fun _ => local_ite (local_say _) (local_when cover fun _ =>
      local_ite last (local_pure _))) wellFormed]
  simp only [Propagation.interval] at last ⊢
  rw [rests_inspect_bind_iff read, if_neg (by simp [there]),
    rests_when_iff cover (fun _ => local_ite last (local_pure _)) wellFormed]
  refine and_congr_right fun _ => and_congr_right fun _ => ?_
  split
  · rename_i applies
    rw [rests_inspect_bind_iff read]
    cases v.isPresent with
    | true => simp [applies]
    | false => simp [rests_pure]
  · rename_i idle
    simp [idle, rests_pure]

omit agree in
/-- An activity that rests does so next to a profile that agrees with the first one where the activity
may execute, also if fewer rules apply. -/
theorem rests_filter (settled : b.bounds.toBounds.Settled)
    (known : b.activity.bounds d = .ok b.bounds)
    (there : ∀ v, d.interval b.activity.interval = .ok v → v.isAbsent = false)
    (agree : b.bounds.startMin < b.bounds.endMax → p.Agree p' b.bounds.startMin b.bounds.endMax)
    (includes : rules.Include rules')
    (h : Rests [] scope d ((⟨p, c⟩ : TimeTable).filter rules b) ()) :
    Rests [] scope d ((⟨p', c⟩ : TimeTable).filter rules' b) () := by
  by_cases room : b.bounds.startMin < b.bounds.endMax
  · obtain ⟨v, row, -⟩ := Activity.bounds_eq_ok known
    have agree := agree room
    rw [rests_filter_iff mem wellFormed row (there v row) room] at h ⊢
    obtain ⟨place, cover, fit⟩ := h
    have placed : (⟨p', c⟩ : TimeTable).place b = (⟨p, c⟩ : TimeTable).place b := by
      unfold TimeTable.place
      rw [earliestStart_congr settled agree, latestEnd_congr settled agree]
    refine ⟨placed ▸ place, fun applies => ?_, fun applies present => ?_⟩
    · refine rests_cover mem wellFormed agree includes (cover ?_)
      rw [Bool.or_eq_true] at applies ⊢
      exact applies.imp includes.1 includes.2
    · refine rests_fit mem agree known (fit ?_ present)
      simp only [Bool.and_eq_true] at applies ⊢
      exact ⟨⟨includes.1 applies.1.1, applies.1.2⟩, applies.2⟩
  · unfold filter
    rw [if_pos (by omega)]
    exact rests_pure _

end Filter

end TimeTable

end Scheduling
