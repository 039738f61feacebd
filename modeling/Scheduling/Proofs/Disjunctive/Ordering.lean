import Scheduling.Proofs.Disjunctive.Precedence
import Scheduling.Proofs.Trace

/-!
# Pairs are kept in order

The precedence that is posted for a pair of intervals keeps them in the order that its literal
states, in every later state of the run, as long as it is never called when it is blind to a
conflict. A blind call switches it off, and then present intervals may overlap.

Results:
* `Precedence.keeps_of_postPair`: a precedence gives its guarantee from the time when it is posted.
* `NoOverlap.ordered_of_postPair`: a pair that was posted is in order once it is placed.
* `NoOverlap.ordered_of_post`: so is every pair of a no-overlap that was posted.
* `NoOverlap.exists_overlap_of_post`: two optional intervals that overlap although the literal
  of their pair is known.
-/

namespace Scheduling

namespace Precedence

/-- The invariant of a precedence holds as soon as it is posted. -/
theorem standing_of_blueprint {p : Precedence} {d : Domains}
    (first : p.first.index < d.intervals.size) (second : p.second.index < d.intervals.size)
    (binary : d.Binary p.before) (values : Table Int) :
    Standing p ⟨values.size⟩ (.precedence p) d ((1 :: p.blueprint.cells).foldl Table.push values) := by
  refine ⟨rfl, first, second, binary, ?_, fun zero => ?_⟩
  · rw [Table.size_foldl_push]
    simp
  · rw [Table.get?_foldl_push, if_neg (by simp)] at zero
    simp at zero

/-- A precedence is not blind as long as its first interval is present. -/
theorem not_blind_of_isPresent {p : Precedence} {d : Domains} {v : Interval}
    (distinct : p.first ≠ p.second) (row : d.interval p.first = .ok v)
    (present : v.isPresent = true) : ¬ p.Blind d := by
  have undecided {w : Interval} (optional : w.isOptional = true)
      (row' : d.interval p.first = .ok w) : False := by
    rw [row] at row'
    cases row'
    simp_all [Interval.isPresent, Interval.isOptional]
  rintro (⟨value, w, w', -, row', row'', optional, optional'⟩ | ⟨_, _, _, same⟩)
  · cases value with
    | true => exact undecided optional row'
    | false => exact undecided optional' row''
  · exact distinct same

/-- A new literal has no values but `0` and `1`, at all checkpoints. -/
theorem binary_newLiteral {e : Engine Rule} (sane : e.Sane) (k : Nat) :
    ((e.newInteger ⟨0, 1⟩).2.domains.past k).Binary ⟨e.domains.nextInteger, true⟩ := by
  refine ⟨⟨0, 1⟩, ?_, by simp, by simp⟩
  have recorded : e.domains.Recorded := sane.store.recordedRows
  rw [show (e.newInteger ⟨0, 1⟩).2.domains = e.domains.addInteger ⟨0, 1⟩ from rfl,
    Domains.past_addInteger recorded, Domains.integer_eq_ok_iff]
  simp only [Domains.addInteger, Domains.nextInteger, Table.get?_push]
  rw [(Domains.size_past e.domains k).1, if_pos rfl]

/-- The literal of a pair is new, and the precedence is posted in one step after it. -/
theorem exists_step_of_postPair {pair : IntervalId × IntervalId} {c : State} {s : Solver Rule}
    {l : Literal} (sane : c.Sane)
    (posted : (NoOverlap.postPair pair).run.run c.solver = .ok (.ok l, s)) :
    l = ⟨c.solver.domains.nextInteger, true⟩ ∧ c.solver.engine.Sane ∧ s.isInfeasible = false ∧
      State.Ready ⟨c.solver.withEngine (c.solver.engine.newInteger ⟨0, 1⟩).2, .done⟩ ∧
      Step (.post (.precedence ⟨pair.1, pair.2, l⟩))
        ⟨c.solver.withEngine (c.solver.engine.newInteger ⟨0, 1⟩).2, .done⟩ ⟨s, .done⟩ := by
  rcases Posting.run_bind_eq_ok_iff.1 posted with ⟨l', s₁, created, rest⟩ | ⟨cause, -, impossible⟩
  swap
  · cases impossible
  obtain ⟨_, made, eq⟩ := Posting.run_liftM_eq_ok_iff.1 created
  cases eq
  cases made
  rcases Posting.run_bind_eq_ok_iff.1 rest with ⟨p, s₂, added, last'⟩ | ⟨cause, -, impossible⟩
  swap
  · cases impossible
  cases last'
  have feasible := Posting.feasible_of_add added
  change c.solver.isInfeasible = false at feasible
  have sane := sane feasible
  have ready : State.Ready ⟨c.solver.withEngine (c.solver.engine.newInteger ⟨0, 1⟩).2, .done⟩ :=
    ⟨feasible, by simp, Engine.sane_newInteger sane ⟨by decide, by decide, by decide⟩⟩
  obtain ⟨step, ready', -⟩ := Posting.step_of_add_ok
    (x := .precedence ⟨pair.1, pair.2, ⟨c.solver.domains.nextInteger, true⟩⟩) ready trivial added
  exact ⟨rfl, sane, ready'.feasible, ready, step⟩

/-- From the time when it is posted the precedence of a pair gives its guarantee. -/
theorem keeps_of_postPair {pair : IntervalId × IntervalId} {c : State} {s : Solver Rule}
    {l : Literal} (sane : c.Sane)
    (first : pair.1.index < c.solver.domains.intervals.size)
    (second : pair.2.index < c.solver.domains.intervals.size)
    (posted : (NoOverlap.postPair pair).run.run c.solver = .ok (.ok l, s))
    (sees : ∀ f, (Operation.post (.precedence ⟨pair.1, pair.2, l⟩)).Calls
      (c.solver.withEngine (c.solver.engine.newInteger ⟨0, 1⟩).2)
      ⟨c.solver.engine.propagators.size⟩ f → ¬ Blind ⟨pair.1, pair.2, l⟩ f.domains) :
    (guarantee ⟨pair.1, pair.2, l⟩).Keeps ⟨c.solver.engine.propagators.size⟩ ⟨s, .done⟩ := by
  obtain ⟨rfl, engine, feasible, ready, step⟩ := exists_step_of_postPair sane posted
  refine Guarantee.keeps_of_post (lawful _)
    (P := fun p f => p = ⟨c.solver.engine.propagators.size⟩ → ¬ Blind _ f.domains)
    (fun f _ _ called _ => called rfl) (fun _ => ready.sane) rfl step ?_ rfl feasible
    (fun _ _ tells => tells) fun k => ?_
  · rintro p f called rfl
    exact sees f called
  · have sizes := Domains.size_past (c.solver.engine.newInteger ⟨0, 1⟩).2.domains k
    have start := standing_of_blueprint
      (p := ⟨pair.1, pair.2, ⟨c.solver.domains.nextInteger, true⟩⟩)
      (by rw [sizes.2]; exact first) (by rw [sizes.2]; exact second) (binary_newLiteral engine k)
      (c.solver.engine.store.cells.past k)
    simp only [Cells.size_past] at start
    exact start

end Precedence

namespace NoOverlap

/-- After the precedence of a pair was posted, the intervals are in the order that the literal
states once both are present with a known start and end, in every later state, unless the
precedence was called when it was blind to a conflict. -/
theorem ordered_of_postPair {pair : IntervalId × IntervalId} {c c' : State} {s : Solver Rule}
    {l : Literal} (reachable : Reachable c)
    (first : pair.1.index < c.solver.domains.intervals.size)
    (second : pair.2.index < c.solver.domains.intervals.size)
    (posted : (postPair pair).run.run c.solver = .ok (.ok l, s))
    (sees : ∀ f, (Operation.post (.precedence ⟨pair.1, pair.2, l⟩)).Calls
      (c.solver.withEngine (c.solver.engine.newInteger ⟨0, 1⟩).2)
      ⟨c.solver.engine.propagators.size⟩ f → ¬ Precedence.Blind ⟨pair.1, pair.2, l⟩ f.domains)
    (steps : Steps (fun p f => p = ⟨c.solver.engine.propagators.size⟩ →
      ¬ Precedence.Blind ⟨pair.1, pair.2, l⟩ f.domains) ⟨s, .done⟩ c')
    (feasible : c'.solver.isInfeasible = false) (last : c'.last ≠ .failed) :
    Precedence.Ordered ⟨pair.1, pair.2, l⟩ c'.solver.domains := by
  have lawful := Precedence.lawful ⟨pair.1, pair.2, l⟩
  have start := Precedence.keeps_of_postPair (sane_of_reachable reachable) first second posted sees
  have keeps := Guarantee.keeps_of_steps lawful (fun f _ _ called _ => called rfl) steps start
    feasible
  obtain ⟨activity, q, tracked⟩ := keeps.tracked
  exact keeps.accepts lawful last (tracked.invariant_now lawful keeps.sane).binary

/-! ## All pairs of a constraint -/

theorem mem_of_mem_pairs {α : Type} {l : List α} {pair : α × α} (h : pair ∈ pairs l) :
    pair.1 ∈ l ∧ pair.2 ∈ l := by
  induction l with
  | nil => cases h
  | cons x rest ih =>
    rcases List.mem_append.1 h with first | later
    · obtain ⟨y, mem, rfl⟩ := List.mem_map.1 first
      exact ⟨List.mem_cons_self, List.mem_cons_of_mem _ mem⟩
    · exact (ih later).imp (List.mem_cons_of_mem _) (List.mem_cons_of_mem _)

/-- While the pairs are posted, one after the other, the propagator `p` is called on the engine
`f`. -/
def PairsCall (p : PropagatorId) (f : Engine Rule) :
    List (IntervalId × IntervalId) → Solver Rule → Prop
  | [], _ => False
  | pair :: rest, s =>
    (Operation.post (.precedence ⟨pair.1, pair.2, ⟨s.domains.nextInteger, true⟩⟩)).Calls
        (s.withEngine (s.engine.newInteger ⟨0, 1⟩).2) p f ∨
      ∃ l s', (postPair pair).run.run s = .ok (.ok l, s') ∧ PairsCall p f rest s'

/-- If the call is one of the propagator `id`, this precedence is not blind to a conflict then. -/
def Sees (precedence : Precedence) (id p : PropagatorId) (f : Engine Rule) : Prop :=
  p = id → ¬ precedence.Blind f.domains

section Pairs

variable {P : PropagatorId → Engine Rule → Prop} {pair : IntervalId × IntervalId}
  {rest : List (IntervalId × IntervalId)} {c c' : State} {s : Solver Rule} {l : Literal}
  {literals : List Literal}

/-- A pair is posted in two steps, and only the second one calls propagators. -/
theorem steps_of_postPair (sane : c.Sane) (last : c.last ≠ .failed)
    (posted : (postPair pair).run.run c.solver = .ok (.ok l, s))
    (calls : ∀ p f, (Operation.post (.precedence ⟨pair.1, pair.2, ⟨c.solver.domains.nextInteger,
      true⟩⟩)).Calls (c.solver.withEngine (c.solver.engine.newInteger ⟨0, 1⟩).2) p f → P p f) :
    Steps P c ⟨s, .done⟩ := by
  obtain ⟨rfl, engine, -, ready, step⟩ := Precedence.exists_step_of_postPair sane posted
  have created : Step (.newInteger 0 1) c
      ⟨c.solver.withEngine (c.solver.engine.newInteger ⟨0, 1⟩).2, .done⟩ :=
    State.Ready.step ⟨ready.feasible, last, engine⟩ ⟨by decide, by decide⟩ rfl
  exact .next (.next .refl created fun p f ⟨_, enters, _⟩ => enters.elim) step calls

/-- Posting a pair adds one propagator, and otherwise only narrows the domains. -/
theorem grows_of_postPair (sane : c.Sane)
    (posted : (postPair pair).run.run c.solver = .ok (.ok l, s)) :
    s.engine.propagators.size = c.solver.engine.propagators.size + 1 ∧
      c.solver.domains.Narrows s.domains := by
  obtain ⟨-, -, feasible, ready, step⟩ := Precedence.exists_step_of_postPair sane posted
  rcases step.posted ready.feasible with infeasible | ⟨-, id, e, status, install, ran, -⟩
  · simp [feasible] at infeasible
  · have installed := Engine.installed_of_install install
    have sane' := installed.sane ready.sane (Posted.standard (.precedence _))
    obtain ⟨-, advances, -⟩ := Engine.sane_of_loop sane' ran
    refine ⟨?_, (Domains.narrows_addInteger c.solver.domains ⟨0, 1⟩).trans ?_⟩
    · rw [advances.size, installed.propagators, Table.size_push]
      rfl
    · have narrows := advances.narrows
      rw [installed.domains] at narrows
      exact narrows

/-- Posting pairs is a run, and its calls are those of `PairsCall`. -/
theorem steps_of_mapM (sane : c.Sane) (last : c.last = .done)
    (posted : (rest.mapM postPair).run.run c.solver = .ok (.ok literals, s))
    (calls : ∀ p f, PairsCall p f rest c.solver → P p f) : Steps P c ⟨s, .done⟩ := by
  induction rest generalizing c literals with
  | nil =>
    cases posted
    obtain ⟨solver, _⟩ := c
    cases last
    exact .refl
  | cons pair rest ih =>
    rw [List.mapM_cons] at posted
    rcases Posting.run_bind_eq_ok_iff.1 posted with ⟨l, s₁, first, later⟩ | ⟨_, -, impossible⟩
    swap
    · cases impossible
    rcases Posting.run_bind_eq_ok_iff.1 later with ⟨ls, s₂, others, done⟩ | ⟨_, -, impossible⟩
    swap
    · cases impossible
    cases done
    have steps := steps_of_postPair (P := P) sane (by rw [last]; decide) first fun p f called =>
      calls p f (.inl called)
    exact steps.trans (ih (steps.sane sane) rfl others fun p f called =>
      calls p f (.inr ⟨l, s₁, first, called⟩))

/-- Of pairs that were posted one after the other, each has a literal and is in the order that this
states, in every later state, unless its own precedence was called when it was blind. -/
theorem ordered_of_mapM {n : Nat} (reachable : Reachable c) (ready : c.last ≠ .failed)
    (known : ∀ pair ∈ rest, pair.1.index < c.solver.domains.intervals.size ∧
      pair.2.index < c.solver.domains.intervals.size)
    (posted : (rest.mapM postPair).run.run c.solver = .ok (.ok literals, s))
    (listed : rest[n]? = some pair) :
    ∃ l, literals[n]? = some l ∧
      ((∀ p f, PairsCall p f rest c.solver →
        Sees ⟨pair.1, pair.2, l⟩ ⟨c.solver.engine.propagators.size + n⟩ p f) →
      ∀ c', Steps (Sees ⟨pair.1, pair.2, l⟩ ⟨c.solver.engine.propagators.size + n⟩) ⟨s, .done⟩ c' →
        c'.solver.isInfeasible = false → c'.last ≠ .failed →
          Precedence.Ordered ⟨pair.1, pair.2, l⟩ c'.solver.domains) := by
  induction rest generalizing c literals n with
  | nil => simp at listed
  | cons first rest ih =>
    rw [List.mapM_cons] at posted
    rcases Posting.run_bind_eq_ok_iff.1 posted with ⟨l, s₁, here, later⟩ | ⟨_, -, impossible⟩
    swap
    · cases impossible
    rcases Posting.run_bind_eq_ok_iff.1 later with ⟨ls, s₂, others, done⟩ | ⟨_, -, impossible⟩
    swap
    · cases impossible
    cases done
    have sane := sane_of_reachable reachable
    have step := steps_of_postPair (P := fun _ _ => True) sane ready here fun _ _ _ => trivial
    have sane₁ : State.Sane ⟨s₁, .done⟩ := step.sane sane
    obtain ⟨inside, inside'⟩ := known first List.mem_cons_self
    cases n with
    | zero =>
      cases listed
      obtain ⟨rfl, -⟩ := Precedence.exists_step_of_postPair sane here
      refine ⟨_, rfl, fun sees c' steps => ordered_of_postPair reachable inside inside' here
        (fun f called => sees _ f (.inl called) rfl) ?_⟩
      exact (steps_of_mapM sane₁ rfl others fun p f called =>
        sees p f (.inr ⟨_, s₁, here, called⟩)).trans steps
    | succ n =>
      have feasible₁ := (Precedence.exists_step_of_postPair sane here).2.2.1
      have more := step.extends sane feasible₁
      obtain ⟨l', found, ordered⟩ := ih (reachable.trans step) (by simp) (fun pair' mem =>
        have ⟨inside, inside'⟩ := known pair' (List.mem_cons_of_mem _ mem)
        ⟨Nat.lt_of_lt_of_le inside more.intervals, Nat.lt_of_lt_of_le inside' more.intervals⟩)
        others listed
      -- The precedence of the first pair comes before those of the others.
      have size : s₁.engine.propagators.size + n = c.solver.engine.propagators.size + (n + 1) := by
        rw [(grows_of_postPair sane here).1]
        omega
      rw [size] at ordered
      exact ⟨l', found, fun sees => ordered fun p f called =>
        sees p f (.inr ⟨l, s₁, here, called⟩)⟩

end Pairs

/-- After a no-overlap was posted with a precedence for every pair, each pair has a literal, and it
is in the order that this states once both intervals are present with a known start and end, in
every later state, unless its own precedence was called when it was blind to a conflict. -/
theorem ordered_of_post {k : NoOverlap} {c : State} {s : Solver Rule} {literals : List Literal}
    {n : Nat} {pair : IntervalId × IntervalId} (method : k.method = .pairs)
    (reachable : Reachable c) (ready : c.last ≠ .failed)
    (known : ∀ i ∈ k.intervals, i.index < c.solver.domains.intervals.size)
    (posted : k.post.run.run c.solver = .ok (.ok literals, s))
    (listed : (pairs k.intervals)[n]? = some pair) :
    ∃ l, literals[n]? = some l ∧
      ((∀ p f, PairsCall p f (pairs k.intervals) c.solver →
        Sees ⟨pair.1, pair.2, l⟩ ⟨c.solver.engine.propagators.size + n⟩ p f) →
      ∀ c', Steps (Sees ⟨pair.1, pair.2, l⟩ ⟨c.solver.engine.propagators.size + n⟩) ⟨s, .done⟩ c' →
        c'.solver.isInfeasible = false → c'.last ≠ .failed →
          Precedence.Ordered ⟨pair.1, pair.2, l⟩ c'.solver.domains) := by
  unfold post at posted
  split at posted
  · rename_i few
    obtain ⟨intervals, _⟩ := k
    match intervals, few with
    | [], _ | [_], _ => simp [pairs] at listed
  · rcases Posting.run_bind_eq_ok_iff.1 posted with ⟨ls, s₁, walked, rest⟩ | ⟨_, -, impossible⟩
    swap
    · cases impossible
    rw [method] at rest
    cases rest
    refine ordered_of_mapM reachable ready (fun pair' mem => ?_) walked listed
    obtain ⟨first, second⟩ := mem_of_mem_pairs mem
    exact ⟨known _ first, known _ second⟩

/-- The first interval of a pair is present, and it differs from the second one. -/
def Led (pair : IntervalId × IntervalId) (d : Domains) : Prop :=
  pair.1 ≠ pair.2 ∧ ∃ v, d.interval pair.1 = .ok v ∧ v.isPresent = true

/-- The first interval stays present while the domains are narrowed. -/
theorem Led.narrows {pair : IntervalId × IntervalId} {d d' : Domains} (h : Led pair d)
    (narrows : d.Narrows d') : Led pair d' := by
  obtain ⟨distinct, v, row, present⟩ := h
  obtain ⟨w, row', narrower⟩ := narrows.interval _ _ row
  exact ⟨distinct, w, row', narrower.isPresent present⟩

/-- As long as the first interval is present, the precedence of the pair is not blind. -/
theorem Led.sees {pair : IntervalId × IntervalId} {l : Literal} {id p : PropagatorId}
    {f : Engine Rule} (h : Led pair f.domains) : Sees ⟨pair.1, pair.2, l⟩ id p f := by
  obtain ⟨distinct, v, row, present⟩ := h
  exact fun _ => Precedence.not_blind_of_isPresent distinct row present

/-- It stays present up to every call while pairs are posted. -/
theorem Led.pairsCall {pair : IntervalId × IntervalId} {rest : List (IntervalId × IntervalId)}
    {c : State} {p : PropagatorId} {f : Engine Rule} (h : Led pair c.solver.domains) (sane : c.Sane)
    (last : c.last ≠ .failed) (feasible : c.solver.isInfeasible = false)
    (called : PairsCall p f rest c.solver) : Led pair f.domains := by
  induction rest generalizing c with
  | nil => exact called.elim
  | cons first rest ih =>
    rcases called with calls | ⟨l, s, posted, later⟩
    · have made : (c.solver.engine.newInteger ⟨0, 1⟩).2.Sane :=
        Engine.sane_newInteger (sane feasible) ⟨by decide, by decide, by decide⟩
      exact (h.narrows (Domains.narrows_addInteger _ _)).narrows (calls.narrows made)
    · obtain ⟨-, -, feasible', -⟩ := Precedence.exists_step_of_postPair sane posted
      have steps := steps_of_postPair (P := fun _ _ => True) sane last posted fun _ _ _ => trivial
      exact ih (c := ⟨s, .done⟩) (h.narrows (grows_of_postPair sane posted).2) (steps.sane sane)
        (by simp) feasible' later

/-- Three intervals of length `5`: a present one that starts between `0` and `7`, a present one at
`20`, and an optional one at `2`. -/
def mixedStart : State :=
  .reach [.newInterval ⟨0, 7, 5, 12, 5, 5⟩ .present, .newInterval ⟨20, 20, 25, 25, 5, 5⟩ .present,
    .newInterval ⟨2, 2, 7, 7, 5, 5⟩ .optional]

/-- They may not overlap. -/
def mixedConstraint : NoOverlap := ⟨[⟨0⟩, ⟨1⟩, ⟨2⟩], .pairs⟩

/-- The state after the constraint is posted. -/
def mixedPosted : State := ⟨mixedConstraint.post.after mixedStart.solver, .done⟩

/-- The optional interval is then made present. -/
def mixedEnd : State := mixedPosted.follow [.decide (.update ⟨2⟩ .present)]

theorem ordered_of_post_mixed : mixedEnd.solver.domains.Places ⟨0⟩ 7 12 ∧
    mixedEnd.solver.domains.Places ⟨2⟩ 2 7 ∧
      Precedence.Ordered ⟨⟨0⟩, ⟨2⟩, ⟨⟨1⟩, true⟩⟩ mixedEnd.solver.domains := by
  have start : (mixedStart.last, mixedStart.solver.isInfeasible,
      mixedStart.solver.domains.intervals) = (.done, false,
        ⟨#[⟨⟨0, 7, 5, 12, 5, 5⟩, .present⟩, ⟨⟨20, 20, 25, 25, 5, 5⟩, .present⟩,
          ⟨⟨2, 2, 7, 7, 5, 5⟩, .optional⟩]⟩) := by cbv
  have posted : (mixedConstraint.post.answer? mixedStart.solver,
      mixedPosted.solver.domains.intervals) = (some [⟨⟨0⟩, true⟩, ⟨⟨1⟩, true⟩, ⟨⟨2⟩, true⟩],
        ⟨#[⟨⟨0, 7, 5, 12, 5, 5⟩, .present⟩, ⟨⟨20, 20, 25, 25, 5, 5⟩, .present⟩,
          ⟨⟨2, 2, 7, 7, 5, 5⟩, .optional⟩]⟩) := by cbv
  have final : ((mixedPosted.next? (.decide (.update ⟨2⟩ .present))).isSome,
      mixedEnd.solver.isInfeasible, mixedEnd.last, mixedEnd.solver.domains.intervals) =
        (true, false, .done,
          ⟨#[⟨⟨7, 7, 12, 12, 5, 5⟩, .present⟩, ⟨⟨20, 20, 25, 25, 5, 5⟩, .present⟩,
            ⟨⟨2, 2, 7, 7, 5, 5⟩, .present⟩]⟩) := by cbv
  simp only [Prod.mk.injEq] at start posted final
  obtain ⟨ready, feasible₀, rows₀⟩ := start
  obtain ⟨answer, rows⟩ := posted
  obtain ⟨next, feasible, last, rows'⟩ := final
  have led {d : Domains} {second third : Interval}
      (rows : d.intervals = ⟨#[⟨⟨0, 7, 5, 12, 5, 5⟩, .present⟩, second, third]⟩) :
      Led (⟨0⟩, ⟨2⟩) d :=
    ⟨by decide, _, Domains.interval_eq_ok_iff.2 (congrArg (Table.get? · 0) rows), rfl⟩
  have reachable : Reachable mixedStart := reachable_reach _
  have sane := sane_of_reachable reachable
  have run := Posting.run_eq_of_answer? answer
  have started : mixedStart.last ≠ .failed := by rw [ready]; decide
  have ended : mixedEnd.last ≠ .failed := by rw [last]; decide
  have known : ∀ i ∈ mixedConstraint.intervals,
      i.index < mixedStart.solver.domains.intervals.size := by
    rw [rows₀]
    decide
  obtain ⟨_, -, posts⟩ := walks_post ⟨feasible₀, started, sane feasible₀⟩ known _ _ run
  obtain ⟨l, literal, ordered⟩ :=
    ordered_of_post (n := 1) (k := mixedConstraint) rfl reachable started known run rfl
  cases literal
  have steps : Steps (Sees ⟨⟨0⟩, ⟨2⟩, ⟨⟨1⟩, true⟩⟩
      ⟨mixedStart.solver.engine.propagators.size + 1⟩) mixedPosted mixedEnd :=
    .next .refl (step_follow next) fun p f calls =>
      ((led rows).narrows (calls.narrows (posts _ rfl).1.sane)).sees
  have row (k : Nat) : mixedEnd.solver.domains.intervals.get? k = _ :=
    congrArg (Table.get? · k) rows'
  exact ⟨⟨_, Domains.interval_eq_ok_iff.2 (row 0), rfl, rfl, rfl, rfl, rfl⟩,
    ⟨_, Domains.interval_eq_ok_iff.2 (row 2), rfl, rfl, rfl, rfl, rfl⟩,
    ordered (fun p f called => ((led rows₀).pairsCall sane started feasible₀ called).sees) _ steps
      feasible ended⟩

/-- Two optional intervals with known bounds that overlap. -/
def blindStart : State :=
  .reach [.newInterval ⟨0, 0, 5, 5, 5, 5⟩ .optional, .newInterval ⟨3, 3, 8, 8, 5, 5⟩ .optional]

/-- They may not overlap. -/
def blindConstraint : NoOverlap := ⟨[⟨0⟩, ⟨1⟩], .pairs⟩

/-- The first one is then said to come first, and both of them to be present. -/
def blindEnd : State :=
  .follow ⟨blindConstraint.post.after blindStart.solver, .done⟩
    [.decide (.assign ⟨⟨0⟩, true⟩ true), .decide (.update ⟨0⟩ .present),
      .decide (.update ⟨1⟩ .present)]

/-- The precedence of two optional intervals with known bounds is switched off as soon as its
literal is known. Both can be made present afterwards, although they overlap. -/
theorem exists_overlap_of_post :
    ∃ (k : NoOverlap) (c c' : State) (s : Solver Rule) (l : Literal), k.method = .pairs ∧
      k.intervals = [⟨0⟩, ⟨1⟩] ∧ Reachable c ∧ c.last = .done ∧
        k.post.run.run c.solver = .ok (.ok [l], s) ∧ Runs ⟨s, .done⟩ c' ∧
          c'.solver.isInfeasible = false ∧ c'.last = .done ∧ l.isTrue c'.solver.domains = .ok true ∧
            c'.solver.domains.Places ⟨0⟩ 0 5 ∧ c'.solver.domains.Places ⟨1⟩ 3 8 := by
  have posted : (blindStart.last, blindConstraint.post.answer? blindStart.solver) =
      (.done, some [⟨⟨0⟩, true⟩]) := by cbv
  have final : (blindEnd.solver.isInfeasible, blindEnd.last,
      Literal.isTrue ⟨⟨0⟩, true⟩ blindEnd.solver.domains, blindEnd.solver.domains.interval ⟨0⟩,
      blindEnd.solver.domains.interval ⟨1⟩) =
        (false, .done, .ok true, .ok ⟨⟨0, 0, 5, 5, 5, 5⟩, .present⟩,
          .ok ⟨⟨3, 3, 8, 8, 5, 5⟩, .present⟩) := by cbv
  simp only [Prod.mk.injEq] at posted final
  obtain ⟨start, answer⟩ := posted
  obtain ⟨feasible, last, known, first, second⟩ := final
  exact ⟨blindConstraint, blindStart, blindEnd, _, _, rfl, rfl, reachable_reach _, start,
    Posting.run_eq_of_answer? answer, runs_follow _ _, feasible, last, known,
    ⟨_, first, rfl, rfl, rfl, rfl, rfl⟩, ⟨_, second, rfl, rfl, rfl, rfl, rfl⟩⟩

end NoOverlap

end Scheduling
