import Scheduling.Proofs.Cumulative.Preservation
import Scheduling.Proofs.Cumulative.Walk

/-!
# A resource at rest

A run of a resource that succeeds and changes no row has found nothing to do for the activities that
it has captured. The span that it stores misses some of them, which the next run takes out of the
active set. What is left looks the same to all activities that are not fixed, so that the next run
finds nothing to do either, in whatever order it captures them. Only a sum of heights that does not
fit a word may be met in the one order and not in the other.

Results:
* `Resource.Calm`, `Resource.calm_of_perm`: the captured activities ask for nothing, nor do those
  that the span does not miss.
* `Resource.Steady`: the active activities ask for nothing, and the stored span is theirs.
* `Resource.steady_of_run`: what a run leaves that succeeds and changes no row.
* `Resource.exists_run_of_steady`: another run succeeds and changes nothing, or it meets such a sum.
-/

namespace Scheduling

open Propagation

namespace Resource

theorem exists_of_forall₂ {α β : Type} {R : α → β → Prop} {l : List α} {l' : List β}
    (h : List.Forall₂ R l l') {b : β} (mem : b ∈ l') : ∃ a ∈ l, R a b := by
  obtain ⟨j, inside, rfl⟩ := List.getElem_of_mem mem
  have inside' := h.length_eq ▸ inside
  exact ⟨_, List.getElem_mem inside', List.Forall₂.get h inside' inside⟩

/-- What stands for some of the keys is, up to the order, a part of what stands for all of them. -/
theorem exists_gone_of_forall₂ {β : Type} {R : Nat → β → Prop} (unique : Relator.RightUnique R)
    {ks ks' : List Nat} {l l' : List β} (nodup : ks.Nodup) (nodup' : ks'.Nodup) (subset : ks' ⊆ ks)
    (h : List.Forall₂ R ks l) (h' : List.Forall₂ R ks' l') :
    ∃ gone, l.Perm (l' ++ gone) ∧ ∀ b ∈ gone, ∃ k ∈ ks, k ∉ ks' ∧ R k b := by
  obtain ⟨rest, perm⟩ : ∃ rest, ks.Perm (ks' ++ rest) := by
    obtain ⟨part, same, sub⟩ := List.subperm_of_subset nodup' subset
    obtain ⟨rest, perm⟩ := sub.exists_perm_append
    exact ⟨rest, perm.trans (same.append_right rest)⟩
  obtain ⟨all, pairs, order⟩ := List.perm_comp_forall₂ perm.symm h
  have first : List.Forall₂ R ks' (all.take ks'.length) :=
    (List.forall₂_take_append _ _ _ pairs.flip).flip
  have second : List.Forall₂ R rest (all.drop ks'.length) :=
    (List.forall₂_drop_append _ _ _ pairs.flip).flip
  obtain rfl : l' = all.take ks'.length := unique.forall₂ h' first
  rw [List.take_append_drop ks'.length all |>.symm] at order
  refine ⟨all.drop ks'.length, order.symm, fun b mem => ?_⟩
  obtain ⟨k, inside, pair⟩ := exists_of_forall₂ second mem
  have apart := (List.nodup_append.1 (perm.nodup_iff.1 nodup)).2.2
  exact ⟨k, perm.mem_iff.2 (List.mem_append_right _ inside),
    fun kept => apart k kept k inside rfl, pair⟩

/-! ## Captured activities that ask for nothing -/

/-- The key stands for the activity, with its bounds in the domains. -/
def Takes (r : Resource) (d : Domains) (k : Nat) (b : Captured) : Prop :=
  r.activities.get? k = some b.activity ∧ b.activity.bounds d = .ok b.bounds

theorem Takes.unique {r : Resource} {d : Domains} {k : Nat} {b b' : Captured} (h : r.Takes d k b)
    (h' : r.Takes d k b') : b = b' := by
  obtain ⟨x, bounds⟩ := b
  obtain ⟨x', bounds'⟩ := b'
  have same : x = x' := Option.some.inj (h.1.symm.trans h'.1)
  subst same
  have same : bounds = bounds' := Except.ok.inj (h.2.symm.trans h'.2)
  rw [same]

theorem Takes.scope_subset {r : Resource} {d : Domains} {k : Nat} {b : Captured}
    (h : r.Takes d k b) : b.activity.scope ⊆ (Rule.resource r).scope := by
  intro v mem
  refine List.mem_flatMap.2 ⟨b.activity, ?_, mem⟩
  have here := h.1
  simp only [Table.get?, Table.toList] at here ⊢
  obtain ⟨inside, eq⟩ := Array.getElem?_eq_some_iff.1 here
  rw [← eq]
  simp

theorem Takes.mono {r : Resource} {d d' : Domains} {k : Nat} {b : Captured} (h : r.Takes d k b)
    (agrees : d.Agrees (Rule.resource r).scope d') : r.Takes d' k b :=
  ⟨h.1, agrees.bounds h.scope_subset h.2⟩

/-- The profile of the activities is consistent, and the rules ask for nothing. -/
def Calm (r : Resource) (d : Domains) (cs : List Captured) : Prop :=
  ∃ profile, Profile.build (cs.map Captured.bounds) = .ok profile ∧
    profile.isConsistent r.capacity.minimum r.capacity.maximum = true ∧
    ∀ b ∈ cs, b.bounds.isFixed = false → Rests [] (Rule.resource r).scope d
      (TimeTable.filter ⟨profile, r.capacity⟩ (r.rules (cs.map Captured.bounds)) b) ()

/-- Fewer activities need not more rules. -/
theorem rules_include {bs bs' : List ActivityBounds} (subset : bs' ⊆ bs) (r : Resource) :
    (r.rules bs).Include (r.rules bs') := by
  have positive (all : allPositive bs = true) : allPositive bs' = true :=
    List.all_eq_true.2 fun b mem => List.all_eq_true.1 all b (subset mem)
  have heights (all : allHeightsFixed bs = true) : allHeightsFixed bs' = true :=
    List.all_eq_true.2 fun b mem => List.all_eq_true.1 all b (subset mem)
  have lengths (all : allLengthsFixed bs = true) : allLengthsFixed bs' = true :=
    List.all_eq_true.2 fun b mem => List.all_eq_true.1 all b (subset mem)
  constructor
  · simp only [rules, Bool.and_eq_true, Bool.not_eq_true', Bool.and_eq_false_iff]
    grind
  · simp only [rules, Bool.and_eq_true, Bool.or_eq_true, Bool.not_eq_true']
    grind

/-- Without the activities that a span misses nothing is asked for, if it contains the others and
their loads can be summed up. -/
theorem calm_of_perm {r : Resource} {d : Domains} {cs cs' gone : List Captured} {s : Span}
    {profile' : Profile} (calm : r.Calm d cs) (perm : cs.Perm (cs' ++ gone))
    (wellFormed : d.WellFormed) (made' : Profile.build (cs'.map Captured.bounds) = .ok profile')
    (takes : ∀ b ∈ cs, ∃ k, r.Takes d k b)
    (there : ∀ b ∈ cs, ∀ v, d.interval b.activity.interval = .ok v → v.isAbsent = false)
    (misses : ∀ b ∈ gone, s.Misses b.bounds.toBounds)
    (contains : ∀ b ∈ cs', s.Contains b.bounds.toBounds) : r.Calm d cs' := by
  obtain ⟨profile, made, consistent, rests⟩ := calm
  obtain ⟨a, admits⟩ := wellFormed.exists_admits
  have member (b : Captured) (mem : b ∈ cs') : b ∈ cs :=
    perm.mem_iff.2 (List.mem_append_left _ mem)
  have allows (b : Captured) (mem : b ∈ cs) : b.Allows a := by
    obtain ⟨k, -, known⟩ := takes b mem
    exact Activity.allows_of_bounds wellFormed known admits
  have settled : ∀ b ∈ cs.map Captured.bounds, b.toBounds.Settled := by
    intro b mem
    obtain ⟨b', mem', rfl⟩ := List.mem_map.1 mem
    exact (allows b' mem').settled
  have perm' : (cs.map Captured.bounds).Perm
      (cs'.map Captured.bounds ++ gone.map Captured.bounds) := by
    rw [← List.map_append]
    exact perm.map _
  have misses' : ∀ b ∈ gone.map Captured.bounds, s.Misses b.toBounds := by
    intro b mem
    obtain ⟨b', mem', rfl⟩ := List.mem_map.1 mem
    exact misses b' mem'
  have contains' : ∀ b ∈ cs'.map Captured.bounds, s.Contains b.toBounds := by
    intro b mem
    obtain ⟨b', mem', rfl⟩ := List.mem_map.1 mem
    exact contains b' mem'
  refine ⟨profile', made', Profile.isConsistent_of_perm perm' settled misses' contains' made made'
    consistent, fun b mem moving => ?_⟩
  obtain ⟨k, known⟩ := takes b (member b mem)
  refine TimeTable.rests_filter known.scope_subset wellFormed (allows b (member b mem)).settled
    known.2 (there b (member b mem)) (fun room => ?_) (rules_include ?_ r)
    (rests b (member b mem) moving)
  · exact Profile.agree_of_perm perm' settled misses' made made' (List.mem_map_of_mem mem)
      (contains b mem) room
  · exact List.map_subset _ fun b mem => member b mem

/-- Whether an activity that is not absent is done. -/
theorem isDone_of_bounds {d : Domains} {s : Span} {b : Captured}
    (known : b.activity.bounds d = .ok b.bounds)
    (there : ∀ v, d.interval b.activity.interval = .ok v → v.isAbsent = false) :
    ∃ done, isDone d s b.activity = .ok done ∧
      (done = true → s.Misses b.bounds.toBounds) := by
  obtain ⟨v, row, same, -, -, -, isFixed⟩ := Activity.bounds_eq_ok known
  refine ⟨_, by simp only [isDone, row, isFixed, bind, Except.bind]; rfl, fun done => ?_⟩
  rw [there v row, ← same] at done
  simp only [Bool.false_or, Bool.and_eq_true, Bool.or_eq_true, decide_eq_true_eq] at done
  exact done.2

/-! ## Resources at rest -/

/-- The active activities ask for nothing, whatever the order in which they are captured, and the
stored span is theirs. -/
structure Steady (r : Resource) (d : Domains) (values : Table Int) (m : Nat) (ks : List Nat)
    (cs : List Captured) : Prop where
  size : values.get? r.active.size.index = some (m : Int)
  nodup : ks.Nodup
  mem_iff : ∀ k, k ∈ ks ↔ r.active.Has m k
  captured : List.Forall₂ (r.Takes d) ks cs
  there : ∀ b ∈ cs, ∀ v, d.interval b.activity.interval = .ok v → v.isAbsent = false
  calm : r.Calm d cs
  start : values.get? r.spanStart.index = some (Span.ofBounds (cs.map Captured.bounds)).start
  stop : values.get? r.spanStop.index = some (Span.ofBounds (cs.map Captured.bounds)).stop

namespace Steady

variable {r : Resource} {d d' : Domains} {values values' : Table Int} {m : Nat} {ks : List Nat}
  {cs : List Captured}

/-- Only the rows in scope and the cells of the resource matter. -/
theorem mono (h : r.Steady d values m ks cs) (agrees : d.Agrees (Rule.resource r).scope d')
    (same : ∀ cell ∈ r.cells, values'.get? cell.index = values.get? cell.index) :
    r.Steady d' values' m ks cs := by
  refine { h with
    size := by rw [same _ (by simp [cells]), h.size]
    captured := h.captured.imp fun _ _ takes => takes.mono agrees
    there := fun b mem v row => ?_
    calm := ?_
    start := by rw [same _ (by simp [cells]), h.start]
    stop := by rw [same _ (by simp [cells]), h.stop] }
  · obtain ⟨k, -, takes⟩ := exists_of_forall₂ h.captured mem
    obtain ⟨w, known, -⟩ := Activity.bounds_eq_ok takes.2
    have row' := agrees.interval _ w (takes.scope_subset (by simp [Activity.scope])) known
    rw [row] at row'
    cases row'
    exact h.there b mem v known
  · obtain ⟨profile, made, consistent, rests⟩ := h.calm
    exact ⟨profile, made, consistent, fun b mem moving => (rests b mem moving).mono agrees⟩

/-- The order of the elements does not matter. -/
theorem permuted (h : r.Steady d values m ks cs) {active : SparseSet}
    (size : active.size = r.active.size) (same : ∀ k, active.Has m k ↔ r.active.Has m k) :
    ({ r with active } : Resource).Steady d values m ks cs :=
  { h with
    size := by rw [size]; exact h.size
    mem_iff := fun k => (h.mem_iff k).trans (same k).symm }

end Steady

/-! ## Runs that change nothing -/

section Run

variable {xs : List Activity} {c : Capacity} {r : Resource} {u : Store} {m : Nat} {s : Span}

/-- The activities that are left after the walk are those that are not done. -/
theorem has_iff_of_fits {d : Domains} {active : SparseSet} {values : Table Int} {m' : Nat}
    (le : m' ≤ m) (larger : ∀ k, m ≤ k → ∀ i, active.Has k i ↔ r.active.Has k i)
    (fits : Fits xs c { r with active } d values m' s)
    (fresh : ∀ k x, r.activities.get? k = some x → active.Has m' k → isDone d s x = .ok false)
    {k : Nat} {x : Activity} (here : r.activities.get? k = some x) :
    active.Has m' k ↔ r.active.Has m k ∧ isDone d s x = .ok false := by
  constructor
  · intro has
    exact ⟨(larger m (Nat.le_refl _) k).1 (has.mono le), fresh k x here has⟩
  · rintro ⟨-, open'⟩
    rcases fits.shape k x here with ⟨has, -⟩ | ⟨done, -⟩
    · exact has
    · rw [open'] at done
      cases done

/-- What a run leaves that succeeds and changes no row: it has switched the resource off, or the
resource is steady. -/
theorem steady_of_run {r' : Resource} {context : Context} {u' : Store}
    (wellFormed : u.domains.WellFormed) (fits : Fits xs c r u.domains u.cells.values m s)
    (nodup : (context.activity :: r.cells).Nodup)
    (ran : (run context r).run u = .ok ((r', .ok ()), u'))
    (agrees : u.domains.Agrees (Rule.resource r).scope u'.domains) :
    u'.cells.values.get? context.activity.index = some 0 ∨
      ∃ m' ks cs, r'.Steady u'.domains u'.cells.values m' ks cs := by
  obtain ⟨active, cells, m', cs, rfl, course⟩ := course_of_run wellFormed fits nodup ran
  have captures := course.captures
  have off {t : Store} (switched : (setActive context false).exec t = .ok (.ok (), u')) :
      u'.cells.values.get? context.activity.index = some 0 := by
    obtain ⟨-, -, inside, values⟩ := writeCell_spec switched
    rw [values, Table.get?_set]
    simp [inside]
  cases course.ends with
  | idle empty switched => exact .inl (off switched)
  | safe safe switched => exact .inl (off switched)
  | settled profile build consistent fixed switched => exact .inl (off switched)
  | conflict failed same => exact absurd rfl failed
  | failed failed evolves => exact absurd rfl failed
  | stored profile build consistent moving t evolves' filtered store =>
    right
    have nodup' := (List.nodup_cons.1 (course.nodup nodup)).2
    obtain ⟨domains, -, row⟩ := storeSpan_spec nodup' store
    rw [evolves'.cells.values_eq] at row
    have distinct := index_ne_of_nodup nodup'
    have scopes (b : Captured) (mem : b ∈ cs) : b.activity.scope ⊆ (Rule.resource r).scope := by
      obtain ⟨k, -, here, known⟩ := captures.exists_key mem
      exact Takes.scope_subset (d := u.domains) ⟨here, known⟩
    have filters : ∀ b ∈ cs.filter fun b => !b.bounds.isFixed, Local [] (Rule.resource r).scope
        (TimeTable.filter ⟨profile, r.capacity⟩ (r.rules (cs.map Captured.bounds)) b) :=
      fun b mem => TimeTable.local_filter _ (scopes b (List.mem_filter.1 mem).1) _
    obtain ⟨unchanged, rests⟩ := (local_forM filters).rests { u with cells } () t wellFormed filtered
      (by rw [← domains]; exact agrees)
    have same : u'.domains = u.domains := domains.trans unchanged
    refine ⟨m', active.elements.toList.take m', cs, ?_, captures.valid.nodup_take m',
      fun k => SparseSet.mem_take_iff, same ▸ captures.captured, fun b mem v row => ?_,
      ⟨profile, build, consistent, fun b mem moving => ?_⟩, ?_, ?_⟩
    · rw [row, if_neg distinct.2.1, if_neg distinct.1]
      exact captures.size
    · rw [same] at row
      exact (captures.contains mem).2 v row
    · rw [same]
      exact (rests_forM_iff filters wellFormed).1 rests b
        (List.mem_filter.2 ⟨mem, by simp [moving]⟩)
    · rw [row, if_neg distinct.2.2, if_pos rfl]
    · rw [row, if_pos rfl]

/-- The activities that are left after the walk of a steady resource ask for nothing, if their loads
can be summed up. -/
theorem calm_of_steady {active : SparseSet} {values values' : Table Int} {m' : Nat}
    {ks : List Nat} {cs cs' : List Captured} {profile : Profile} (wellFormed : u.domains.WellFormed)
    (made : Profile.build (cs'.map Captured.bounds) = .ok profile)
    (steady : r.Steady u.domains values m ks cs)
    (captures : Captures xs c { r with active } u.domains values' m'
      (Span.ofBounds (cs.map Captured.bounds)) cs')
    (has_iff : ∀ k x, r.activities.get? k = some x → (active.Has m' k ↔ r.active.Has m k ∧
      isDone u.domains (Span.ofBounds (cs.map Captured.bounds)) x = .ok false)) :
    r.Calm u.domains cs' := by
  have subset : active.elements.toList.take m' ⊆ ks := by
    intro k mem
    have has := SparseSet.mem_take_iff.1 mem
    obtain ⟨x, here⟩ := Table.exists_get? (captures.valid.lt_of_has has)
    exact (steady.mem_iff k).2 ((has_iff k x here).1 has).1
  obtain ⟨gone, perm, out⟩ := exists_gone_of_forall₂ (R := r.Takes u.domains)
    (fun _ _ _ => Takes.unique) steady.nodup (captures.valid.nodup_take m') subset steady.captured
    captures.captured
  refine calm_of_perm steady.calm perm wellFormed made (fun b mem => ?_) steady.there
    (fun b mem => ?_) fun b mem => (captures.contains mem).1
  · obtain ⟨k, -, takes⟩ := exists_of_forall₂ steady.captured mem
    exact ⟨k, takes⟩
  · -- What has been taken out was done.
    obtain ⟨k, inside, left, takes⟩ := out b mem
    obtain ⟨done, known, misses⟩ := isDone_of_bounds
      (s := Span.ofBounds (cs.map Captured.bounds)) takes.2
      (steady.there b (perm.mem_iff.2 (List.mem_append_right cs' mem)))
    cases done with
    | true => exact misses rfl
    | false =>
      refine absurd (SparseSet.mem_take_iff.2 ?_) left
      exact (has_iff k b.activity takes.1).2 ⟨(steady.mem_iff k).1 inside, known⟩

/-- Calm activities are left as they are. -/
theorem returns_of_calm {context : Context} {cs : List Captured} (calm : r.Calm u.domains cs)
    (inside : ∀ cell ∈ context.activity :: r.cells, cell.index < u.cells.values.size) :
    Returns (r.filter context cs) u fun _ s' => s'.domains = u.domains := by
  have writes (cell : CellId) (mem : cell ∈ context.activity :: r.cells) (value : Int) {t : Store}
      (domains : t.domains = u.domains) (size : t.cells.values.size = u.cells.values.size) :
      Returns (writeCell cell value) t fun _ s' => s'.domains = u.domains ∧
        s'.cells.values.size = u.cells.values.size :=
    returns_writeCell (by rw [size]; exact inside cell mem) fun cells assigned =>
      ⟨domains, by rw [(Cells.assign_spec assigned).2.1, Table.size_set, size]⟩
  obtain ⟨profile, made, consistent, rests⟩ := calm
  refine returns_liftM_bind made ?_
  simp only [consistent, Bool.not_true, Bool.false_eq_true, if_false]
  split
  · exact (writes _ (by simp) _ rfl rfl).weaken fun _ _ => And.left
  have filtered : Rests [] (Rule.resource r).scope u.domains
      ((cs.filter fun b => !b.bounds.isFixed).forM
        (TimeTable.filter ⟨profile, r.capacity⟩ (r.rules (cs.map Captured.bounds)))) () :=
    rests_forM fun b mem => by
      obtain ⟨listed, moving⟩ := List.mem_filter.1 mem
      exact rests b listed (by simpa using moving)
  refine returns_bind (filtered u (.refl _ _) (by simp)) ?_
  rintro _ t ⟨-, domains, size⟩
  refine returns_bind (writes r.spanStart (by simp [cells]) _ domains size) ?_
  rintro _ t' ⟨domains', size'⟩
  exact (writes r.spanStop (by simp [cells]) _ domains' size').weaken fun _ _ => And.left

/-- Another run of a steady resource succeeds and changes nothing, unless some sum of heights does not
fit a word, and is met in the order in which the activities are now captured. -/
theorem exists_run_of_steady (context : Context) {ks : List Nat} {cs : List Captured}
    (wellFormed : u.domains.WellFormed) (fits : Fits xs c r u.domains u.cells.values m s)
    (steady : r.Steady u.domains u.cells.values m ks cs)
    (nodup : (context.activity :: r.cells).Nodup)
    (inside : context.activity.index < u.cells.values.size) :
    (∃ r' u', (run context r).run u = .ok ((r', .ok ()), u') ∧ u'.domains = u.domains) ∨
      ¬ Activity.SumsHold u.domains xs ∧ (run context r).run u = .error .additionOverflow := by
  obtain rfl : s = Span.ofBounds (cs.map Captured.bounds) := by
    have start := Option.some.inj (fits.start.symm.trans steady.start)
    have stop := Option.some.inj (fits.stop.symm.trans steady.stop)
    cases s
    simp only at start stop
    rw [start, stop]
  have member {k : Nat} {x : Activity} (here : r.activities.get? k = some x)
      (has : r.active.Has m k) : ∃ b ∈ cs, b.activity = x ∧ r.Takes u.domains k b := by
    obtain ⟨b, mem, takes⟩ := exists_of_forall₂ steady.captured.flip ((steady.mem_iff k).2 has)
    exact ⟨b, mem, Option.some.inj (takes.1.symm.trans here), takes⟩
  have decided (k : Nat) (lt : k < r.activities.size) : ∃ answer,
      (do isDone u.domains (Span.ofBounds (cs.map Captured.bounds)) (← r.activities.read k)) =
        .ok answer := by
    obtain ⟨x, here⟩ := Table.exists_get? lt
    rw [Table.read_eq_ok_iff.2 here]
    rcases fits.shape k x here with ⟨has, -⟩ | ⟨done, -⟩
    · obtain ⟨b, mem, rfl, takes⟩ := member here has
      obtain ⟨done, known, -⟩ := isDone_of_bounds takes.2 (steady.there b mem)
      exact ⟨done, known⟩
    · exact ⟨true, done⟩
  obtain ⟨⟨active, cells⟩, swept⟩ :=
    SparseSet.exists_sweep fits.valid fits.size fits.le (Nat.le_refl m) decided
  obtain ⟨size, evolves, m', le, fits', fresh, larger⟩ :=
    fits_of_sweep fits rfl (List.nodup_cons.1 nodup).2 swept
  have has_iff (k : Nat) (x : Activity) (here : r.activities.get? k = some x) :=
    has_iff_of_fits le larger fits' fresh here
  have cells' : ∀ cell ∈ context.activity :: Resource.cells { r with active },
      cell.index < cells.values.size := by
    rw [evolves.size]
    simp only [Resource.cells, size, List.forall_mem_cons]
    exact ⟨inside, Table.lt_size_of_get? fits.size, Table.lt_size_of_get? fits.start,
      Table.lt_size_of_get? fits.stop, by simp⟩
  have switchOff {t : Store} (domains : t.domains = u.domains) (same : t.cells = cells) :
      Returns (setActive context false) t fun _ s' => s'.domains = u.domains :=
    returns_writeCell (by rw [same]; exact cells' _ List.mem_cons_self) fun _ _ => domains
  have dropped : (dropDone (Span.ofBounds (cs.map Captured.bounds)) m r).run u =
      .ok ({ r with active }, { u with cells }) := by
    rw [dropDone_eq_sweep, swept]
    rfl
  have quiet (propagates : Returns (({ r with active } : Resource).propagate context)
      { u with cells } fun _ s' => s'.domains = u.domains) :
      ∃ r' u', (run context r).run u = .ok ((r', .ok ()), u') ∧ u'.domains = u.domains := by
    obtain ⟨_, u', propagated, kept⟩ := propagates
    exact ⟨{ r with active }, u', run_of_dropDone fits dropped propagated, kept⟩
  obtain ⟨cs', _, capture, rfl, captured⟩ := returns_capture (u := { u with cells }) fits'.size
    fun k has => by
      obtain ⟨x, here⟩ := Table.exists_get? (fits'.valid.lt_of_has has)
      obtain ⟨b, -, -, takes⟩ := member here ((has_iff k x here).1 has).1
      exact ⟨b, takes⟩
  have captures : Captures xs c { r with active } u.domains cells.values m'
      (Span.ofBounds (cs.map Captured.bounds)) cs' := { fits' with fresh, captured }
  have propagate_eq : (({ r with active } : Resource).propagate context).exec { u with cells } = _ :=
    exec_bind_of_exec capture
  by_cases empty : cs'.isEmpty = true
  · left
    refine quiet (returns_of_exec_eq propagate_eq ?_)
    rw [if_pos empty]
    exact switchOff rfl rfl
  by_cases safe : isSafe r.capacity (cs'.map Captured.bounds) = true
  · left
    refine quiet (returns_of_exec_eq propagate_eq ?_)
    rw [if_neg empty, if_pos safe]
    exact returns_bind (Q := fun _ s' => s' = Store.say _ .capacitySafe) (returns_say rfl)
      fun _ s' eq => switchOff (by rw [eq]; rfl) (by rw [eq]; rfl)
  rw [if_neg empty, if_neg safe] at propagate_eq
  cases made : Profile.build (cs'.map Captured.bounds) with
  | ok profile =>
    have calm : ({ r with active } : Resource).Calm u.domains cs' :=
      calm_of_steady (r := r) wellFormed made steady captures has_iff
    exact .inl (quiet (returns_of_exec_eq propagate_eq
      (returns_of_calm (u := { u with cells }) calm cells')))
  | error fault =>
    right
    obtain ⟨beyond, rfl⟩ := Profile.overflows_of_build (captures.heightsHold wellFormed) made
    refine ⟨fun sums => beyond (captures.sumsHold sums), ?_⟩
    rw [run_eq_of_dropDone fits dropped, propagate_eq]
    exact congrArg _ (exec_liftM_bind_of_error made)

end Run

end Resource

end Scheduling
