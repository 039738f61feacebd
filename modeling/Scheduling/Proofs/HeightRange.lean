import Mathlib.Algebra.Order.BigOperators.Group.List
import Mathlib.Data.List.Nodup
import Scheduling.Proofs.Offers
import Scheduling.Proofs.Updates

/-!
# The range of the height at an endpoint

A usage function has a height at an endpoint of an interval because of this interval: the signed sum
of the heights of its pulses and steps there, if the interval takes place. The range of this height
is the sum of the ranges of its terms, each of which may be zero on its own while it is open whether
the interval takes place. But the terms are zero together or not at all. If every height belongs to
one pulse or step only, all values of the height lie in the range, and each of its ends is one of
them, unless the interval is optional and there are terms of both signs at this end.

Results:
* `Usage.heightOf`: the height, and `Usage.sum_value_terms`: its terms.
* `HeightTerm.bounds_eq`: the range, as a sum.
* `HeightTerm.exists_attains`: heights of their own reach their ends all at once.
* `HeightTerm.attains_iff`: when an end of the range is reached.
* `Usage.range_of_height`: the range of the height at an endpoint.
* `Usage.range_not_attained`: an optional interval with a range that is too wide.
-/

namespace Scheduling

/-! ## Sides -/

namespace Side

/-- The end of a range once zero is one of its values. -/
def withZero (s : Side) (r : Int) : Int :=
  match s with
  | lower => min 0 r
  | upper => max 0 r

theorem keeps_withZero (s : Side) (r : Int) :
    s.Keeps (s.withZero r) r ∧ s.Keeps (s.withZero r) 0 := by
  cases s <;> simp only [Keeps, withZero] <;> omega

theorem withZero_of_keeps {s : Side} {r : Int} (h : s.Keeps r 0) : s.withZero r = r := by
  cases s <;> simp only [Keeps, withZero] at * <;> omega

theorem withZero_eq_zero_iff {s : Side} {r : Int} : s.withZero r = 0 ↔ s.Keeps 0 r := by
  cases s <;> simp only [Keeps, withZero] <;> omega

theorem keeps_trans {s : Side} {x y z : Int} (h : s.Keeps x y) (h' : s.Keeps y z) :
    s.Keeps x z := by
  cases s <;> simp only [Keeps] at * <;> omega

theorem eq_of_keeps {s : Side} {x y : Int} (h : s.Keeps x y) (h' : s.Keeps y x) : x = y := by
  cases s <;> simp only [Keeps] at * <;> omega

variable {α : Type} {s : Side} {l : List α} {f g : α → Int}

theorem keeps_sum (h : ∀ x ∈ l, s.Keeps (f x) (g x)) : s.Keeps (l.map f).sum (l.map g).sum := by
  cases s
  · exact List.sum_le_sum h
  · exact List.sum_le_sum h

/-- Sums that are as far on one side as possible have equal parts. -/
theorem eq_of_sum_eq (h : ∀ x ∈ l, s.Keeps (f x) (g x)) (same : (l.map f).sum = (l.map g).sum) :
    ∀ x ∈ l, f x = g x := by
  intro x mem
  by_contra differs
  cases s with
  | lower =>
    have := List.sum_lt_sum f g h ⟨x, mem, lt_of_le_of_ne (h x mem) differs⟩
    omega
  | upper =>
    have := List.sum_lt_sum g f h ⟨x, mem, lt_of_le_of_ne (h x mem) (Ne.symm differs)⟩
    omega

end Side

/-! ## Terms -/

/-- The assignment with another value of an integer variable. -/
def Assignment.set (a : Assignment) (x : IntegerId) (value : Int) : Assignment :=
  { a with integer := fun y => if y = x then value else a.integer y }

theorem Domains.Admits.set {d : Domains} {a : Assignment} (h : d.Admits a) {x : IntegerId}
    {row : IntegerDomain} {value : Int} (here : d.integer x = .ok row) (inside : row.Admits value) :
    d.Admits (a.set x value) := by
  refine ⟨fun y row' here' => ?_, h.interval⟩
  simp only [Assignment.set]
  split
  · rename_i same
    rw [same, here] at here'
    cases here'
    exact inside
  · exact h.integer y row' here'

namespace HeightTerm

/-- Both ends of the height can be read. -/
def Reads (d : Domains) (t : HeightTerm) : Prop := ∀ s, ∃ r, t.height.bound s d = .ok r

instance (d : Domains) (t : HeightTerm) : Decidable (t.Reads d) :=
  decidable_of_iff (∀ s ∈ [Side.lower, .upper], (t.height.bound s d).toOption.isSome = true) <| by
    have read (s : Side) : (t.height.bound s d).toOption.isSome = true ↔
        ∃ r, t.height.bound s d = .ok r := by
      cases t.height.bound s d <;> simp [Except.toOption]
    refine ⟨fun both s => (read s).1 (both s (by cases s <;> decide)), fun both s _ => ?_⟩
    exact (read s).2 (both s)

/-- An end of the height, if it can be read. -/
def atEnd (d : Domains) (s : Side) (t : HeightTerm) : Int :=
  match t.height.bound s d with
  | .ok r => r
  | .error _ => 0

/-- At this end no two heights have different signs. -/
def SameSign (d : Domains) (s : Side) (terms : List HeightTerm) : Prop :=
  (∀ t ∈ terms, 0 ≤ t.atEnd d s) ∨ ∀ t ∈ terms, t.atEnd d s ≤ 0

/-- An end of the range of a term, given the end of its height. -/
def portion (p : Presence) (s : Side) (r : Int) : Int :=
  match p with
  | .present => r
  | .absent => 0
  | .optional => s.withZero r

variable {d : Domains} {a : Assignment} {t : HeightTerm} {terms : List HeightTerm} {v : Interval}

theorem bound_eq_atEnd (reads : t.Reads d) (s : Side) :
    t.height.bound s d = .ok (t.atEnd d s) := by
  obtain ⟨r, read⟩ := reads s
  rw [atEnd, read]

theorem range_eq (here : d.interval t.interval = .ok v) (reads : t.Reads d) :
    t.range d = .ok ⟨portion v.presence .lower (t.atEnd d .lower),
      portion v.presence .upper (t.atEnd d .upper)⟩ := by
  simp only [range, Variable.lower, Variable.upper, bound_eq_atEnd reads, here, bind, Except.bind,
    pure, Except.pure]
  cases v.presence <;> rfl

/-- The ends of a height belong to the ends of its domain. -/
theorem exists_atEnd (wellFormed : d.WellFormed) (reads : t.Reads d) :
    ∃ row, d.integer t.height.base = .ok row ∧ row.WellFormed ∧ ∀ s,
      t.height.Fits (row.bound (t.height.side s)) ∧
        t.atEnd d s = t.height.eval (row.bound (t.height.side s)) := by
  obtain ⟨row, here⟩ := Variable.exists_row_of_bound (bound_eq_atEnd reads .lower)
  have inside := wellFormed.integer _ row here
  exact ⟨row, here, inside, fun s =>
    (Variable.bound_eq_ok_iff here inside).1 (bound_eq_atEnd reads s)⟩

theorem holds_atEnd (wellFormed : d.WellFormed) (reads : t.Reads d) (s : Side) :
    Width.w32.Holds (t.atEnd d s) :=
  Variable.holds_bound wellFormed (bound_eq_atEnd reads s)

theorem holds_portion (wellFormed : d.WellFormed) (reads : t.Reads d) (p : Presence) (s : Side) :
    Width.w32.Holds (portion p s (t.atEnd d s)) := by
  have inside := holds_atEnd wellFormed reads s
  cases p <;> cases s <;>
    simp only [portion, Side.withZero, Width.Holds, Width.least, Width.greatest] at * <;> omega

theorem keeps_atEnd (wellFormed : d.WellFormed) (reads : t.Reads d) (admits : d.Admits a)
    (s : Side) : s.Keeps (t.atEnd d s) (a.value t.height) := by
  obtain ⟨row, here, -, ends⟩ := exists_atEnd wellFormed reads
  have inside := t.height.eval_bounds (admits.integer _ row here)
  rw [(ends s).2]
  cases s
  · exact inside.1
  · exact inside.2

/-- A term stays in its range. -/
theorem keeps_portion (wellFormed : d.WellFormed) (reads : t.Reads d) (admits : d.Admits a)
    (here : d.interval t.interval = .ok v) (s : Side) :
    s.Keeps (portion v.presence s (t.atEnd d s)) (t.value a) := by
  have inside := keeps_atEnd wellFormed reads admits s
  have zero : s.Keeps 0 0 := by cases s <;> exact Int.le_refl 0
  have possible := admits.interval _ v here
  rw [HeightTerm.value]
  cases taken : a.interval t.interval <;> rw [taken] at possible <;>
    cases presence : v.presence <;>
    simp [Interval.Admits, presence, IntervalValue.isPresent, portion] at *
  · exact zero
  · exact (s.keeps_withZero _).2
  · exact inside
  · exact Side.keeps_trans (s.keeps_withZero _).1 inside

theorem sameSign_iff {s : Side} : SameSign d s terms ↔
    (∀ t ∈ terms, s.Keeps 0 (t.atEnd d s)) ∨ ∀ t ∈ terms, s.Keeps (t.atEnd d s) 0 := by
  cases s
  · exact Iff.rfl
  · exact or_comm

/-! ## Sums of terms -/

/-- Adding ranges that are words of 32 bits, when a number of them have been added before. -/
theorem foldlM_plus {g : HeightTerm → Load} (total : Load) (before : Nat)
    (ranges : ∀ t ∈ terms, t.range d = .ok (g t))
    (words : ∀ t ∈ terms, Width.w32.Holds (g t).low ∧ Width.w32.Holds (g t).high)
    (low : -2147483648 * (before : Int) ≤ total.low ∧ total.low ≤ 2147483647 * before)
    (high : -2147483648 * (before : Int) ≤ total.high ∧ total.high ≤ 2147483647 * before)
    (few : before + terms.length ≤ 2 ^ 32) :
    terms.foldlM (fun total t => do total.plus (← t.range d)) total =
      .ok ⟨total.low + (terms.map fun t => (g t).low).sum,
        total.high + (terms.map fun t => (g t).high).sum⟩ := by
  induction terms generalizing total before with
  | nil => simp [pure, Except.pure]
  | cons t terms ih =>
    obtain ⟨lowWord, highWord⟩ := words t List.mem_cons_self
    rw [List.length_cons] at few
    simp only [Width.Holds, Width.least, Width.greatest] at lowWord highWord
    have added : total.plus (g t) = .ok ⟨total.low + (g t).low, total.high + (g t).high⟩ := by
      refine Load.plus_eq_ok_iff.2 ⟨?_, ?_, rfl⟩ <;>
        simp only [Width.Holds, Width.least, Width.greatest] <;> omega
    rw [List.foldlM_cons, ranges t List.mem_cons_self]
    simp only [bind, Except.bind, added]
    have rest := ih ⟨total.low + (g t).low, total.high + (g t).high⟩ (before + 1)
      (fun u mem => ranges u (List.mem_cons_of_mem _ mem))
      (fun u mem => words u (List.mem_cons_of_mem _ mem))
      (by push_cast; omega) (by push_cast; omega) (by omega)
    simp only [bind, Except.bind] at rest
    rw [rest]
    simp only [List.map_cons, List.sum_cons, Int.add_assoc]

section

variable {i : IntervalId} (wellFormed : d.WellFormed) (reads : ∀ t ∈ terms, t.Reads d)
  (same : ∀ t ∈ terms, t.interval = i) (here : d.interval i = .ok v)
include wellFormed reads same here

/-- The range of a sum of at most as many terms as there are keys. -/
theorem bounds_eq (few : terms.length ≤ 2 ^ 32) :
    bounds d terms = .ok ⟨(terms.map fun t => portion v.presence .lower (t.atEnd d .lower)).sum,
      (terms.map fun t => portion v.presence .upper (t.atEnd d .upper)).sum⟩ := by
  have ranges (t : HeightTerm) (mem : t ∈ terms) := range_eq (v := v)
    (by rw [same t mem]; exact here) (reads t mem)
  have words (t : HeightTerm) (mem : t ∈ terms) (s : Side) :=
    holds_portion wellFormed (reads t mem) v.presence s
  rw [bounds, foldlM_plus .zero 0 ranges
    (fun t mem => ⟨words t mem .lower, words t mem .upper⟩) (by simp [Load.zero])
    (by simp [Load.zero]) (by omega)]
  simp only [Load.zero, Int.zero_add]

/-- All values of the sum lie in its range. -/
theorem keeps_sum (admits : d.Admits a) (s : Side) :
    s.Keeps (terms.map fun t => portion v.presence s (t.atEnd d s)).sum
      (terms.map (value a)).sum :=
  Side.keeps_sum fun t mem =>
    keeps_portion wellFormed (reads t mem) admits (by rw [same t mem]; exact here) s

omit same here in
/-- Heights of their own reach their ends all at once. -/
theorem exists_attains (distinct : (terms.map fun t => t.height.base).Nodup) (admits : d.Admits a)
    (s : Side) : ∃ a', d.Admits a' ∧ a'.interval = a.interval ∧
      ∀ t ∈ terms, a'.value t.height = t.atEnd d s := by
  induction terms with
  | nil => exact ⟨a, admits, rfl, by simp⟩
  | cons t terms ih =>
    rw [List.map_cons, List.nodup_cons] at distinct
    obtain ⟨new, distinct⟩ := distinct
    obtain ⟨a', admits', kept, attains⟩ := ih (fun u mem => reads u (List.mem_cons_of_mem _ mem))
      distinct
    -- The first height is set last: the others have bases of their own and keep their values.
    obtain ⟨row, there, inside, ends⟩ := exists_atEnd wellFormed (reads t List.mem_cons_self)
    refine ⟨a'.set t.height.base (row.bound (t.height.side s)),
      admits'.set there (inside.admits_bound _), kept, fun u mem => ?_⟩
    rcases List.mem_cons.1 mem with rfl | mem
    · rw [(ends s).2, Assignment.value, Assignment.set]
      simp
    · have differs : u.height.base ≠ t.height.base := fun eq =>
        new (List.mem_map.2 ⟨u, mem, eq⟩)
      rw [← attains u mem, Assignment.value, Assignment.set, Assignment.value]
      simp only [differs, if_false]

omit reads in
/-- If the interval can be absent, there is an assignment with which all terms are zero. -/
theorem exists_zero (possible : v.presence ≠ .present) :
    ∃ a, d.Admits a ∧ ∀ t ∈ terms, t.value a = 0 := by
  obtain ⟨a, admits⟩ := wellFormed.exists_admits
  refine ⟨a.put i .absent, admits.put here possible, fun t mem => ?_⟩
  simp [value, same t mem, Assignment.put, IntervalValue.isPresent]

/-- If the interval can be present, there is one with which they are all at their ends. -/
theorem exists_ends (distinct : (terms.map fun t => t.height.base).Nodup)
    (possible : v.presence ≠ .absent) (s : Side) :
    ∃ a, d.Admits a ∧ ∀ t ∈ terms, t.value a = t.atEnd d s := by
  obtain ⟨a, admits⟩ := wellFormed.exists_admits
  obtain ⟨start, length, placement⟩ := Bounds.Settled.exists_admits (wellFormed.interval i v here)
  obtain ⟨a', admits', kept, attains⟩ := exists_attains wellFormed reads distinct
    (admits.put here (show v.Admits (.placed start length) from ⟨possible, placement⟩)) s
  refine ⟨a', admits', fun t mem => ?_⟩
  rw [value, same t mem, kept, attains t mem]
  simp [Assignment.put, IntervalValue.isPresent]

/-- An end of the range is reached unless the interval is optional and there are terms of both signs
at this end. -/
theorem attains_iff (distinct : (terms.map fun t => t.height.base).Nodup) (s : Side) :
    (∃ a, d.Admits a ∧ (terms.map (value a)).sum =
      (terms.map fun t => portion v.presence s (t.atEnd d s)).sum) ↔
      v.isOptional = false ∨ SameSign d s terms := by
  rw [sameSign_iff]
  constructor
  · rintro ⟨a, admits, sum⟩
    by_cases optional : v.presence = .optional
    · right
      -- A sum at the end of its range has all terms at the ends of theirs.
      have each := Side.eq_of_sum_eq (fun t mem => keeps_portion wellFormed (reads t mem) admits
        (by rw [same t mem]; exact here) s) sum.symm
      simp only [optional, portion] at each
      by_cases taken : (a.interval i).isPresent = true
      · refine .inr fun t mem => ?_
        have value := each t mem
        rw [HeightTerm.value, same t mem, if_pos taken] at value
        have inside := keeps_atEnd wellFormed (reads t mem) admits s
        rw [← value] at inside
        obtain ⟨beyond, zero⟩ := s.keeps_withZero (t.atEnd d s)
        rwa [← Side.eq_of_keeps inside beyond] at zero
      · refine .inl fun t mem => ?_
        have value := each t mem
        rw [HeightTerm.value, same t mem, if_neg taken] at value
        exact Side.withZero_eq_zero_iff.1 value
    · left
      simpa [Interval.isOptional] using optional
  · intro oneSign
    have ends := exists_ends wellFormed reads same here distinct
    have zero := exists_zero wellFormed same here
    cases presence : v.presence with
    | present =>
      obtain ⟨a, admits, each⟩ := ends (by simp [presence]) s
      exact ⟨a, admits, congrArg List.sum (List.map_congr_left each)⟩
    | absent =>
      obtain ⟨a, admits, each⟩ := zero (by simp [presence])
      exact ⟨a, admits, congrArg List.sum (List.map_congr_left each)⟩
    | optional =>
      rcases oneSign.resolve_left (by simp [Interval.isOptional, presence]) with beyond | within
      · obtain ⟨a, admits, each⟩ := zero (by simp [presence])
        exact ⟨a, admits, congrArg List.sum (List.map_congr_left fun t mem =>
          (each t mem).trans (Side.withZero_eq_zero_iff.2 (beyond t mem)).symm)⟩
      · obtain ⟨a, admits, each⟩ := ends (by simp [presence]) s
        exact ⟨a, admits, congrArg List.sum (List.map_congr_left fun t mem =>
          (each t mem).trans (Side.withZero_of_keeps (within t mem)).symm)⟩

end

end HeightTerm

/-! ## Functions -/

namespace Usage

/-- The height that the function has at an endpoint of an interval because of this interval. A pulse
or step of the interval counts if the interval takes place; a step at its end has not happened at
its start. -/
def heightOf (a : Assignment) (i : IntervalId) (point : Endpoint) : Usage → Int
  | flat => 0
  | pulse own height => if own = i ∧ (a.interval i).isPresent then a.integer height else 0
  | step source happens _ height =>
    if source = i ∧ (happens = .start ∨ point = .stop) ∧ (a.interval i).isPresent then
      a.integer height
    else 0
  | plus left right => left.heightOf a i point + right.heightOf a i point
  | minus left right => left.heightOf a i point - right.heightOf a i point

variable {d : Domains} {f : Usage} {i : IntervalId} {point : Endpoint}

/-- A height counts with its sign while the interval takes place. -/
theorem value_term (a : Assignment) (height : IntegerId) (i : IntervalId) (positive : Bool) :
    HeightTerm.value a ⟨signed height positive, i⟩ =
      if positive then if (a.interval i).isPresent then a.integer height else 0
      else -(if (a.interval i).isPresent then a.integer height else 0) := by
  rw [HeightTerm.value, value_signed]
  cases positive <;> split <;> simp

/-- The terms sum up to the height, or to its negation. -/
theorem sum_value_terms (a : Assignment) (f : Usage) (i : IntervalId) (point : Endpoint)
    (positive : Bool) : ((f.terms i point positive).map (HeightTerm.value a)).sum =
      if positive then f.heightOf a i point else -f.heightOf a i point := by
  induction f generalizing positive with
  | flat => simp [terms, heightOf]
  | pulse own height =>
    by_cases here : own = i
    · simp [terms, heightOf, here, value_term]
    · simp [terms, heightOf, here]
  | step source happens dummy height =>
    by_cases here : source = i ∧ (happens = .start ∨ point = .stop)
    · simp [terms, heightOf, here, value_term]
    · have absent : ¬ (source = i ∧ (happens = .start ∨ point = .stop) ∧
          (a.interval i).isPresent = true) := fun ⟨own, happened, _⟩ => here ⟨own, happened⟩
      simp [terms, heightOf, here, absent]
  | plus left right ihl ihr =>
    rw [terms, List.map_append, List.sum_append, ihl, ihr, heightOf]
    cases positive
    · simp only [Bool.false_eq_true, if_false]
      omega
    · simp only [if_true]
  | minus left right ihl ihr =>
    rw [terms, List.map_append, List.sum_append, ihl, ihr, heightOf]
    cases positive
    · simp only [Bool.false_eq_true, if_false, Bool.not_false, if_true]
      omega
    · simp only [if_true, Bool.not_true, Bool.false_eq_true, if_false]
      omega

/-- All terms count while the interval takes place. -/
theorem interval_of_mem_terms {positive : Bool} {t : HeightTerm}
    (mem : t ∈ f.terms i point positive) : t.interval = i := by
  induction f generalizing positive with
  | flat => cases mem
  | pulse own height =>
    simp only [terms, List.mem_ite_nil_right, List.mem_singleton] at mem
    rw [mem.2]
  | step source happens dummy height =>
    simp only [terms, List.mem_ite_nil_right, List.mem_singleton] at mem
    rw [mem.2]
  | plus left right ihl ihr => exact (List.mem_append.1 mem).elim ihl ihr
  | minus left right ihl ihr => exact (List.mem_append.1 mem).elim ihl ihr

/-- The heights of the terms are heights of the function, in their order. -/
theorem sublist_heights (f : Usage) (i : IntervalId) (point : Endpoint) (positive : Bool) :
    ((f.terms i point positive).map fun t => t.height.base).Sublist f.heights := by
  induction f generalizing positive with
  | flat => exact .slnil
  | pulse own height =>
    rw [terms]
    split
    · exact .refl _
    · exact List.nil_sublist _
  | step source happens dummy height =>
    rw [terms]
    split
    · exact .refl _
    · exact List.nil_sublist _
  | plus left right ihl ihr =>
    rw [terms, List.map_append]
    exact (ihl positive).append (ihr positive)
  | minus left right ihl ihr =>
    rw [terms, List.map_append]
    exact (ihl positive).append (ihr !positive)

/-- There are no more different heights than keys. -/
theorem length_le_of_nodup {heights : List IntegerId} (distinct : heights.Nodup)
    (keys : ∀ x ∈ heights, x.index < 2 ^ 32) : heights.length ≤ 2 ^ 32 := by
  have inj : Function.Injective IntegerId.index := fun ⟨_⟩ ⟨_⟩ same => congrArg _ same
  have sub : heights.map IntegerId.index ⊆ List.range (2 ^ 32) := by
    rintro _ listed
    obtain ⟨x, mem, rfl⟩ := List.mem_map.1 listed
    exact List.mem_range.2 (keys x mem)
  have := (List.subperm_of_subset (distinct.map inj) sub).length_le
  rwa [List.length_map, List.length_range] at this

/-- Let every height of a function belong to one of its pulses and steps only, where keys are words
of 32 bits, and let the heights of the terms at an endpoint of one of its intervals be readable. Then
so is the range of the height at this endpoint, and all values that the height can have lie in it.
Each end of the range is one of them if and only if the interval is not optional or no two terms
have different signs at this end. -/
theorem range_of_height {v : Interval} (reachable : d.Reachable) (distinct : f.heights.Nodup)
    (keys : ∀ x ∈ f.heights, x.index < 2 ^ 32) (here : d.interval i = .ok v)
    (inScope : f.hasInScope i = true) (reads : ∀ t ∈ f.terms i point true, t.Reads d) :
    ∃ terms range, f.heightAt i point = .ok terms ∧ HeightTerm.bounds d terms = .ok range ∧
      (∀ a, (terms.map (HeightTerm.value a)).sum = f.heightOf a i point) ∧
      (∀ a, d.Admits a →
        range.low ≤ f.heightOf a i point ∧ f.heightOf a i point ≤ range.high) ∧
      ((∃ a, d.Admits a ∧ f.heightOf a i point = range.low) ↔
        v.isOptional = false ∨ HeightTerm.SameSign d .lower terms) ∧
      ((∃ a, d.Admits a ∧ f.heightOf a i point = range.high) ↔
        v.isOptional = false ∨ HeightTerm.SameSign d .upper terms) := by
  have wellFormed := reachable.wellFormed
  have same (t : HeightTerm) (mem : t ∈ f.terms i point true) : t.interval = i :=
    interval_of_mem_terms mem
  have sub := f.sublist_heights i point true
  have few : (f.terms i point true).length ≤ 2 ^ 32 := by
    have := sub.length_le
    rw [List.length_map] at this
    exact Nat.le_trans this (length_le_of_nodup distinct keys)
  have sum (a : Assignment) :
      ((f.terms i point true).map (HeightTerm.value a)).sum = f.heightOf a i point := by
    rw [sum_value_terms, if_pos rfl]
  have keeps (a : Assignment) (admits : d.Admits a) (s : Side) :=
    HeightTerm.keeps_sum wellFormed reads same here admits s
  have attains (s : Side) :=
    HeightTerm.attains_iff wellFormed reads same here (distinct.sublist sub) s
  simp only [sum] at keeps attains
  exact ⟨_, _, by rw [heightAt, inScope, if_pos rfl],
    HeightTerm.bounds_eq wellFormed reads same here few, sum,
    fun a admits => ⟨keeps a admits .lower, keeps a admits .upper⟩, attains .lower, attains .upper⟩

namespace Tentative

/-- Two known heights, and an interval of which it is open whether it takes place. -/
def domains : Domains :=
  ((Domains.empty.addInteger ⟨3, 3⟩).addInteger ⟨2, 2⟩).addInterval
    ⟨⟨0, 10, 2, 12, 2, 2⟩, .optional⟩

/-- Both heights while the interval executes. -/
def joined : Usage := plus (pulse ⟨0⟩ ⟨0⟩) (pulse ⟨0⟩ ⟨1⟩)

/-- The difference of the heights while the interval executes. -/
def opposed : Usage := minus (pulse ⟨0⟩ ⟨0⟩) (pulse ⟨0⟩ ⟨1⟩)

theorem reachable : domains.Reachable := by
  have three : (⟨3, 3⟩ : IntegerDomain).WellFormed := ⟨by decide, by decide, by decide⟩
  have two : (⟨2, 2⟩ : IntegerDomain).WellFormed := ⟨by decide, by decide, by decide⟩
  have within : (⟨0, 10, 2, 12, 2, 2⟩ : Bounds).WithinHorizon := by constructor <;> decide
  exact .addInterval (.addInteger (.addInteger .empty three) two) within rfl

end Tentative

open Tentative in
/-- The heights have one sign: the range is from zero to their sum, and both ends are reached. -/
theorem range_of_height_joined : domains.Reachable ∧ joined.heights.Nodup ∧
    (∀ x ∈ joined.heights, x.index < 2 ^ 32) ∧
    domains.interval ⟨0⟩ = .ok ⟨⟨0, 10, 2, 12, 2, 2⟩, .optional⟩ ∧
    joined.hasInScope ⟨0⟩ = true ∧ (∀ t ∈ joined.terms ⟨0⟩ .start true, t.Reads domains) ∧
    ∃ terms, joined.heightAt ⟨0⟩ .start = .ok terms ∧
      HeightTerm.bounds domains terms = .ok ⟨0, 5⟩ ∧
      (∃ a, domains.Admits a ∧ joined.heightOf a ⟨0⟩ .start = 0) ∧
      ∃ a, domains.Admits a ∧ joined.heightOf a ⟨0⟩ .start = 5 := by
  have distinct : joined.heights.Nodup := by decide
  have keys : ∀ x ∈ joined.heights, x.index < 2 ^ 32 := by decide
  have here : domains.interval ⟨0⟩ = .ok ⟨⟨0, 10, 2, 12, 2, 2⟩, .optional⟩ := rfl
  have inScope : joined.hasInScope ⟨0⟩ = true := by decide
  have reads : ∀ t ∈ joined.terms ⟨0⟩ .start true, t.Reads domains := by decide
  obtain ⟨terms, range, summed, read, -, -, low, high⟩ :=
    range_of_height reachable distinct keys here inScope reads
  cases summed
  obtain rfl : range = ⟨0, 5⟩ := Except.ok.inj (read.symm.trans rfl)
  have oneSign (s : Side) : HeightTerm.SameSign domains s (joined.terms ⟨0⟩ .start true) :=
    .inl (by cases s <;> decide)
  exact ⟨reachable, distinct, keys, here, inScope, reads, _, rfl, rfl, low.2 (.inr (oneSign _)),
    high.2 (.inr (oneSign _))⟩

open Tentative in
/-- The heights have different signs: the height is zero or one, but the range is wider on both
sides. -/
theorem range_not_attained : domains.Reachable ∧ opposed.heights.Nodup ∧
    opposed.hasInScope ⟨0⟩ = true ∧ (∀ t ∈ opposed.terms ⟨0⟩ .start true, t.Reads domains) ∧
    ∃ terms, opposed.heightAt ⟨0⟩ .start = .ok terms ∧
      HeightTerm.bounds domains terms = .ok ⟨-2, 3⟩ ∧
      ∀ a, domains.Admits a →
        opposed.heightOf a ⟨0⟩ .start = 0 ∨ opposed.heightOf a ⟨0⟩ .start = 1 := by
  refine ⟨reachable, by decide, by decide, by decide, _, rfl, rfl, fun a admits => ?_⟩
  have first := admits.integer ⟨0⟩ ⟨3, 3⟩ rfl
  have second := admits.integer ⟨1⟩ ⟨2, 2⟩ rfl
  simp only [IntegerDomain.Admits] at first second
  simp only [opposed, heightOf, true_and]
  split <;> omega

end Usage

end Scheduling
