import Mathlib.Data.Finset.Max
import Scheduling.Cumulative.FixedSchedule
import Scheduling.Proofs.Cumulative.Sums

/-!
# Three ways to check a fixed schedule

The level of a fixed schedule changes only where an activity starts or ends, and it is tested at
these times only. The plain test keeps a table with one row for every time from the earliest start
up to the latest end, enters each activity into the rows of the times at which it executes, and
tests every row. Both come to the same result, also where the level leaves its word. A third test
asks whether the profile of the activities is consistent.

Results:
* `FixedSchedule.tabulate_spec`: the table of a schedule, or the time at which the level leaves its
  word.
* `FixedSchedule.isWithinTable_eq`: the table and the times of change give the same result.
* `FixedSchedule.checks_agree`: table, times of change, profile and definition agree.
* `FixedSchedule.exists_fault`: what the tests cannot represent.
-/

namespace Scheduling

/-- What a table says of a time: the level, and how many activities execute. -/
structure Occupancy where
  level : Int
  running : Nat
  deriving DecidableEq, Repr

/-- What is known of a fixed activity while a profile is used. -/
def FixedActivity.bounds (a : FixedActivity) : ActivityBounds :=
  ⟨⟨a.start, a.start, a.stop, a.stop, a.stop - a.start, a.stop - a.start⟩, a.height, a.height, true,
    true⟩

namespace FixedSchedule

/-! ## The table -/

/-- Enters a height at the next `left` times from `time` on. The rows start at the time `first`. -/
def enter (first height : Int) : (left : Nat) → (time : Int) → Table Occupancy →
    Except Fault (Table Occupancy)
  | 0, _, table => return table
  | left + 1, time, table => do
    let index := (time - first).toNat
    let row ← table.read index
    let level ← Width.w64.add row.level height
    enter first height left (time + 1) (table.set index ⟨level, row.running + 1⟩)

/-- Enters all activities, one after the other. -/
def enterAll (first : Int) (s : FixedSchedule) (table : Table Occupancy) :
    Except Fault (Table Occupancy) :=
  s.foldlM (fun table a => enter first a.height (a.stop - a.start).toNat a.start table) table

theorem enterAll_cons (first : Int) (a : FixedActivity) (s : FixedSchedule)
    (table : Table Occupancy) : enterAll first (a :: s) table =
      enter first a.height (a.stop - a.start).toNat a.start table >>= enterAll first s :=
  List.foldlM_cons

/-- The table of a schedule from `first` on. -/
def tabulate (s : FixedSchedule) (first : Int) (duration : Nat) : Except Fault (Table Occupancy) :=
  enterAll first s (.ofList (.replicate duration ⟨0, 0⟩))

/-- At every time at which some activity executes, the level lies within the capacity, as found from
the table of all times. -/
def isWithinTable (s : FixedSchedule) (minCapacity maxCapacity : Int) : Except Fault Bool := do
  let s := s.executing
  let (first, last) := s.span
  if first ≥ last then return true
  let duration ← Width.w64.sub last first
  Memory.reserve duration.toNat 8
  let table ← s.tabulate first duration.toNat
  return table.toList.all fun row =>
    row.running == 0 || (minCapacity ≤ row.level && row.level ≤ maxCapacity)

/-! ## Levels in words -/

section Levels

variable {s done : FixedSchedule} {a : FixedActivity} {t : Int}

theorem levelAt_concat : (done ++ [a]).levelAt t =
    done.levelAt t >>= fun level => if a.executesAt t then Width.w64.add level a.height else
      .ok level := by
  unfold levelAt
  rw [List.filter_append, List.foldlM_append]
  cases executes : a.executesAt t with
  | true => simp [executes]
  | false => simp [executes, pure, Except.pure]

/-- The only fault of a level is that a sum leaves its word. -/
theorem levelAt_cases (s : FixedSchedule) (t : Int) :
    (∃ level, s.levelAt t = .ok level) ∨ s.levelAt t = .error .additionOverflow := by
  induction s using List.reverseRecOn with
  | nil => exact .inl ⟨0, rfl⟩
  | append_singleton done a ih =>
    rw [levelAt_concat]
    rcases ih with ⟨level, known⟩ | overflows
    · rw [known]
      simp only [bind, Except.bind, Width.add, Width.narrow]
      split
      · split <;> simp
      · simp
    · rw [overflows]
      exact .inr rfl

/-- A level that leaves its word does so whatever follows. -/
theorem levelAt_append_of_error (rest : FixedSchedule)
    (overflows : done.levelAt t = .error .additionOverflow) :
    (done ++ rest).levelAt t = .error .additionOverflow := by
  induction rest using List.reverseRecOn with
  | nil => simpa using overflows
  | append_singleton rest a ih =>
    rw [← List.append_assoc, levelAt_concat, ih]
    rfl

end Levels

/-! ## Entering activities -/

/-- The table has a row for each of `duration` times from `first` on, which says what the schedule
is like at that time. -/
structure Tabulates (first : Int) (duration : Nat) (s : FixedSchedule) (table : Table Occupancy) :
    Prop where
  size : table.size = duration
  row : ∀ i, i < duration → ∃ level, s.levelAt (first + i) = .ok level ∧
    table.get? i = some ⟨level, s.countP (·.executesAt (first + i))⟩

section Enter

variable {first time : Int} {duration : Nat} {table : Table Occupancy}

/-- Entering a height adds it to the rows of the given times, or one of the sums leaves its word. -/
theorem enter_spec (height : Int) (left : Nat) (rows : Nat → Occupancy)
    (size : table.size = duration)
    (known : ∀ i, i < duration → table.get? i = some (rows i)) (begun : first ≤ time)
    (inside : time + left ≤ first + duration) :
    (∃ table', enter first height left time table = .ok table' ∧ table'.size = duration ∧
      ∀ i, i < duration → table'.get? i = some
        (if time ≤ first + i ∧ first + i < time + left then
          ⟨(rows i).level + height, (rows i).running + 1⟩ else rows i) ∧
        (time ≤ first + i ∧ first + i < time + left → Width.w64.Holds ((rows i).level + height))) ∨
      enter first height left time table = .error .additionOverflow ∧
        ∃ i, i < duration ∧ time ≤ first + i ∧ first + i < time + left ∧
          ¬ Width.w64.Holds ((rows i).level + height) := by
  induction left generalizing time table rows with
  | zero =>
    refine .inl ⟨table, rfl, size, fun i lt => ?_⟩
    rw [if_neg (by omega)]
    exact ⟨known i lt, fun within => by omega⟩
  | succ left ih =>
    obtain ⟨index, here⟩ : ∃ index : Nat, time = first + index := ⟨(time - first).toNat, by omega⟩
    have lt : index < duration := by omega
    have read : table.read (time - first).toNat = .ok (rows index) := by
      rw [Table.read_eq_ok_iff, ← known index lt]
      congr 1
      omega
    simp only [enter, read, bind, Except.bind, Width.add, Width.narrow]
    by_cases holds : Width.w64.Holds ((rows index).level + height)
    · rw [if_pos holds]
      simp only
      -- the row of this time is up to date, and the others follow
      let rows' := fun i : Nat =>
        if i = index then ⟨(rows index).level + height, (rows index).running + 1⟩ else rows i
      have next := @ih (time + 1) (table.set (time - first).toNat
        ⟨(rows index).level + height, (rows index).running + 1⟩) rows' (by simpa using size)
        (fun i lt' => ?_) (by omega) (by omega)
      · rcases next with ⟨table', entered, size', rest⟩ | ⟨overflows, i, lt', le, upTo, beyond⟩
        · refine .inl ⟨table', entered, size', fun i lt' => ?_⟩
          obtain ⟨row, fits⟩ := rest i lt'
          by_cases same : i = index
          · subst same
            rw [row, if_neg (by omega), if_pos (by omega)]
            exact ⟨by simp [rows'], fun _ => holds⟩
          · simp only [rows', if_neg same] at row fits
            rw [row]
            refine ⟨?_, fun within => fits (by omega)⟩
            by_cases within : time + 1 ≤ first + i ∧ first + i < time + 1 + left
            · rw [if_pos within, if_pos (by omega)]
            · rw [if_neg within, if_neg (by omega)]
        · have other : i ≠ index := by omega
          simp only [rows', if_neg other] at beyond
          exact .inr ⟨overflows, i, lt', by omega, by omega, beyond⟩
      · have position : (time - first).toNat = index := by omega
        rw [Table.get?_set, position]
        by_cases same : i = index
        · simp [rows', same, size, lt]
        · simp [rows', same, Ne.symm same, known i lt']
    · rw [if_neg holds]
      exact .inr ⟨rfl, index, lt, by omega, by omega, holds⟩

variable {s done : FixedSchedule}

/-- Entering an activity brings the table up to date, or the level leaves its word. -/
theorem Tabulates.enter {a : FixedActivity} (h : Tabulates first duration done table)
    (executes : a.start < a.stop) (begun : first ≤ a.start) (upTo : a.stop ≤ first + duration) :
    (∃ table', FixedSchedule.enter first a.height (a.stop - a.start).toNat a.start table =
        .ok table' ∧ Tabulates first duration (done ++ [a]) table') ∨
    FixedSchedule.enter first a.height (a.stop - a.start).toNat a.start table =
        .error .additionOverflow ∧
      ∃ i, i < duration ∧ (done ++ [a]).levelAt (first + i) = .error .additionOverflow := by
  have level (i : Nat) : ∃ level, i < duration → done.levelAt (first + i) = .ok level ∧
      table.get? i = some ⟨level, done.countP (·.executesAt (first + i))⟩ := by
    by_cases lt : i < duration
    · obtain ⟨level, known⟩ := h.row i lt
      exact ⟨level, fun _ => known⟩
    · exact ⟨0, fun lt' => absurd lt' lt⟩
  choose levels known using level
  have within (i : Nat) : a.executesAt (first + i) = true ↔
      a.start ≤ first + i ∧ first + i < a.start + (a.stop - a.start).toNat := by
    simp only [FixedActivity.executesAt, Bool.and_eq_true, decide_eq_true_eq]
    omega
  rcases enter_spec a.height (a.stop - a.start).toNat
      (fun i => ⟨levels i, done.countP (·.executesAt (first + i))⟩) h.size
      (fun i lt => (known i lt).2) begun (by omega) with
    ⟨table', entered, size, rows⟩ | ⟨overflows, i, lt, le, upTo, beyond⟩
  · refine .inl ⟨table', entered, size, fun i lt => ?_⟩
    obtain ⟨row, fits⟩ := rows i lt
    rw [row, levelAt_concat, (known i lt).1, List.countP_append, List.countP_singleton]
    by_cases here : a.executesAt (first + i) = true
    · have holds := fits ((within i).1 here)
      refine ⟨levels i + a.height, ?_, ?_⟩
      · simp only [bind, Except.bind, here, if_true]
        exact Width.add_eq_ok_iff.2 ⟨holds, rfl⟩
      · rw [if_pos ((within i).1 here), if_pos here]
    · refine ⟨levels i, by simp [bind, Except.bind, here], ?_⟩
      rw [if_neg fun inside => here ((within i).2 inside), if_neg here]
      rfl
  · refine .inr ⟨overflows, i, lt, ?_⟩
    rw [levelAt_concat, (known i lt).1]
    simp only [bind, Except.bind, (within i).2 ⟨le, upTo⟩, if_true, Width.add, Width.narrow]
    exact if_neg beyond

/-- Entering further activities. -/
theorem Tabulates.enterAll (h : Tabulates first duration done table)
    (executing : ∀ a ∈ s, a.start < a.stop ∧ first ≤ a.start ∧ a.stop ≤ first + duration) :
    (∃ table', FixedSchedule.enterAll first s table = .ok table' ∧
      Tabulates first duration (done ++ s) table') ∨
    FixedSchedule.enterAll first s table = .error .additionOverflow ∧
      ∃ i, i < duration ∧ (done ++ s).levelAt (first + i) = .error .additionOverflow := by
  induction s generalizing done table with
  | nil => exact .inl ⟨table, rfl, by simpa using h⟩
  | cons a s ih =>
    obtain ⟨executes, begun, upTo⟩ := executing a List.mem_cons_self
    rw [enterAll_cons, show done ++ a :: s = done ++ [a] ++ s by simp]
    rcases h.enter executes begun upTo with ⟨table', entered, next⟩ | ⟨overflows, i, lt, level⟩
    · rw [entered]
      exact ih next fun b mem => executing b (List.mem_cons_of_mem _ mem)
    · rw [overflows]
      exact .inr ⟨rfl, i, lt, levelAt_append_of_error s level⟩

/-- The table of a schedule, or a time at which its level leaves its word. -/
theorem tabulate_spec
    (executing : ∀ a ∈ s, a.start < a.stop ∧ first ≤ a.start ∧ a.stop ≤ first + duration) :
    (∃ table, s.tabulate first duration = .ok table ∧ Tabulates first duration s table) ∨
    s.tabulate first duration = .error .additionOverflow ∧
      ∃ i, i < duration ∧ s.levelAt (first + i) = .error .additionOverflow := by
  have start : Tabulates first duration [] (.ofList (.replicate duration ⟨0, 0⟩)) := by
    refine ⟨by simp [Table.ofList, Table.size], fun i lt => ⟨0, rfl, ?_⟩⟩
    simp [Table.ofList, Table.get?, lt]
  exact start.enterAll executing

end Enter

/-! ## Times of change -/

section Changes

variable {s : FixedSchedule} {t : Int}

/-- While nothing changes, the same activities execute. -/
theorem exists_change (busy : ∃ a ∈ s, a.executesAt t = true) :
    ∃ c ∈ s.changes, ∀ a ∈ s, a.executesAt c = a.executesAt t := by
  -- the last change up to the time
  obtain ⟨a, mem, executes⟩ := busy
  simp only [FixedActivity.executesAt, Bool.and_eq_true, decide_eq_true_eq] at executes
  have change {b : FixedActivity} (mem : b ∈ s) : b.start ∈ s.changes ∧ b.stop ∈ s.changes :=
    ⟨List.mem_flatMap.2 ⟨b, mem, by simp⟩, List.mem_flatMap.2 ⟨b, mem, by simp⟩⟩
  have some : (s.changes.toFinset.filter (· ≤ t)).Nonempty :=
    ⟨a.start, by simp [(change mem).1, executes.1]⟩
  obtain ⟨c, inside, latest⟩ := Finset.exists_max_image _ id some
  simp only [Finset.mem_filter, List.mem_toFinset, id_eq] at inside latest
  refine ⟨c, inside.1, fun b mem => ?_⟩
  have started := latest b.start
  have stopped := latest b.stop
  simp only [change mem, true_and] at started stopped
  rw [Bool.eq_iff_iff]
  simp only [FixedActivity.executesAt, Bool.and_eq_true, decide_eq_true_eq]
  omega

theorem levelAt_congr {c : Int} (same : ∀ a ∈ s, a.executesAt c = a.executesAt t) :
    s.levelAt c = s.levelAt t := by
  unfold levelAt
  rw [List.filter_congr same]

theorem levelAt_of_idle (idle : ¬ ∃ a ∈ s, a.executesAt t = true) : s.levelAt t = .ok 0 := by
  unfold levelAt
  rw [List.filter_eq_nil_iff.2 fun a mem executes => idle ⟨a, mem, executes⟩]
  rfl

end Changes

/-! ## Both tests look at all levels -/

/-- Some activity executes at the time. -/
def Busy (s : FixedSchedule) (t : Int) : Prop := ∃ a ∈ s, a.executesAt t = true

/-- Wherever some activity executes, the level lies within the capacity. -/
def StaysWithin (s : FixedSchedule) (minCapacity maxCapacity : Int) : Prop :=
  ∀ t, s.Busy t → minCapacity ≤ s.level t ∧ s.level t ≤ maxCapacity

section Tests

variable {s : FixedSchedule} {minCapacity maxCapacity : Int}

/-- Either all levels fit their words, or one that does not is found at a time of change. -/
theorem levels_cases (s : FixedSchedule) :
    (∀ t, s.levelAt t = .ok (s.level t)) ∨
      ∃ c ∈ s.changes, s.Busy c ∧ s.levelAt c = .error .additionOverflow := by
  by_cases fit : ∀ t, s.levelAt t = .ok (s.level t)
  · exact .inl fit
  push Not at fit
  obtain ⟨t, beyond⟩ := fit
  have overflows : s.levelAt t = .error .additionOverflow := by
    rcases levelAt_cases s t with ⟨level, known⟩ | overflows
    · exact absurd (known.trans (congrArg _ (eq_level_of_levelAt known))) beyond
    · exact overflows
  have busy : s.Busy t := by
    by_contra idle
    rw [levelAt_of_idle idle] at overflows
    cases overflows
  obtain ⟨c, mem, same⟩ := exists_change busy
  obtain ⟨a, inside, executes⟩ := busy
  exact .inr ⟨c, mem, ⟨a, inside, (same a inside).trans executes⟩,
    (levelAt_congr same).trans overflows⟩

/-- The test at the times of change. -/
def testChanges (s : FixedSchedule) (minCapacity maxCapacity : Int) : Except Fault Bool := do
  let levels ← s.changes.mapM fun time => do return (time, ← s.levelAt time)
  return levels.all fun (time, level) =>
    !s.any (·.executesAt time) || (minCapacity ≤ level && level ≤ maxCapacity)

/-- The test of every row of a table. -/
def testRows (s : FixedSchedule) (first : Int) (duration : Nat) (minCapacity maxCapacity : Int) :
    Except Fault Bool := do
  let table ← s.tabulate first duration
  return table.toList.all fun row =>
    row.running == 0 || (minCapacity ≤ row.level && row.level ≤ maxCapacity)

theorem mapM_levels_of_forall (fit : ∀ t, s.levelAt t = .ok (s.level t)) (times : List Int) :
    (times.mapM fun time => do return (time, ← s.levelAt time)) =
      (.ok (times.map fun time => (time, s.level time)) : Except Fault (List (Int × Int))) := by
  induction times with
  | nil => rfl
  | cons t times ih =>
    rw [List.mapM_cons, ih, fit]
    rfl

theorem mapM_levels_of_error {c : Int} (overflows : s.levelAt c = .error .additionOverflow)
    {times : List Int} (mem : c ∈ times) :
    (times.mapM fun time => do return (time, ← s.levelAt time)) =
      (.error .additionOverflow : Except Fault (List (Int × Int))) := by
  induction times with
  | nil => cases mem
  | cons t times ih =>
    rw [List.mapM_cons]
    rcases levelAt_cases s t with ⟨level, known⟩ | here
    · have later : c ∈ times := by
        rcases List.mem_cons.1 mem with rfl | later
        · simp [known] at overflows
        · exact later
      rw [known, ih later]
      rfl
    · rw [here]
      rfl

/-- The times of change stand for all times. -/
theorem testChanges_of_forall (minCapacity maxCapacity : Int)
    (fit : ∀ t, s.levelAt t = .ok (s.level t)) :
    ∃ answer, s.testChanges minCapacity maxCapacity = .ok answer ∧
      (answer = true ↔ s.StaysWithin minCapacity maxCapacity) := by
  refine ⟨_, by rw [testChanges, mapM_levels_of_forall fit]; rfl, ?_⟩
  simp only [List.all_map, List.all_eq_true, Function.comp, Bool.or_eq_true, Bool.not_eq_true',
    Bool.and_eq_true, decide_eq_true_eq]
  constructor
  · intro tested t busy
    obtain ⟨c, mem, same⟩ := exists_change busy
    obtain ⟨a, inside, executes⟩ := busy
    have level : s.level c = s.level t := by
      have equal := levelAt_congr same
      rw [fit, fit] at equal
      exact Except.ok.inj equal
    rcases tested c mem with idle | within
    · have := List.any_eq_false.1 idle a inside
      rw [same a inside] at this
      exact absurd executes this
    · rwa [← level]
  · intro within c mem
    by_cases busy : s.any (·.executesAt c) = true
    · exact .inr (within c (List.any_eq_true.1 busy))
    · exact .inl (by simpa using busy)

/-- A table from the earliest start up to the latest end gives the same result. -/
theorem testRows_eq (s : FixedSchedule) (first : Int) {duration : Nat}
    (executing : ∀ a ∈ s, a.start < a.stop ∧ first ≤ a.start ∧ a.stop ≤ first + duration) :
    s.testRows first duration minCapacity maxCapacity = s.testChanges minCapacity maxCapacity := by
  have index {t : Int} (busy : s.Busy t) : ∃ i : Nat, i < duration ∧ t = first + i := by
    obtain ⟨a, mem, executes⟩ := busy
    obtain ⟨-, begun, upTo⟩ := executing a mem
    simp only [FixedActivity.executesAt, Bool.and_eq_true, decide_eq_true_eq] at executes
    exact ⟨(t - first).toNat, by omega, by omega⟩
  rcases levels_cases s with fit | ⟨c, mem, busy, overflows⟩
  · obtain ⟨answer, tested, within⟩ := testChanges_of_forall minCapacity maxCapacity fit
    rcases tabulate_spec executing with ⟨table, made, rows⟩ | ⟨-, i, -, beyond⟩
    · rw [tested, testRows, made]
      refine congrArg Except.ok (Bool.eq_iff_iff.2 (Iff.trans ?_ within.symm))
      simp only [List.all_eq_true, Bool.or_eq_true, beq_iff_eq, Bool.and_eq_true,
        decide_eq_true_eq]
      constructor
      · intro all t busy
        obtain ⟨i, lt, rfl⟩ := index busy
        obtain ⟨level, known, row⟩ := rows.row i lt
        rw [← eq_level_of_levelAt known]
        rcases all _ (Array.mem_toList_iff.2 (Array.mem_of_getElem? row)) with none | inside
        · obtain ⟨a, mem, executes⟩ := busy
          exact absurd (List.countP_eq_zero.1 none a mem) (by simpa using executes)
        · exact inside
      · intro stays row mem
        obtain ⟨i, lt, rfl⟩ := List.mem_iff_getElem.1 mem
        obtain ⟨level, known, here⟩ := rows.row i (rows.size ▸ lt)
        have same : table.toList[i] = ⟨level, s.countP (·.executesAt (first + i))⟩ := by
          have found : table.toList[i]? = table.get? i := by
            rw [Table.toList, Array.getElem?_toList, Table.get?]
          rw [List.getElem?_eq_getElem lt, here] at found
          exact Option.some.inj found
        rw [same]
        by_cases running : s.countP (·.executesAt (first + i)) = 0
        · exact .inl running
        · obtain ⟨a, inside, executes⟩ := List.countP_pos_iff.1 (Nat.pos_of_ne_zero running)
          rw [eq_level_of_levelAt known]
          exact .inr (stays _ ⟨a, inside, executes⟩)
    · rw [fit] at beyond
      cases beyond
  · rw [testChanges, mapM_levels_of_error overflows mem]
    obtain ⟨i, lt, rfl⟩ := index busy
    rcases tabulate_spec executing with ⟨table, made, rows⟩ | ⟨made, -⟩
    · obtain ⟨level, known, -⟩ := rows.row i lt
      rw [known] at overflows
      cases overflows
    · rw [testRows, made]
      rfl

/-- A span that is widened by all activities. -/
def widen (s : FixedSchedule) (span : Int × Int) : Int × Int :=
  s.foldl (fun (first, last) a => (min first a.start, max last a.stop)) span

theorem widen_cons (a : FixedActivity) (s : FixedSchedule) (span : Int × Int) :
    widen (a :: s) span = widen s (min span.1 a.start, max span.2 a.stop) := rfl

/-- A widened span holds all activities, and its ends are ends of activities where they are not
those from before. -/
theorem widen_spec (s : FixedSchedule) (span : Int × Int) :
    (widen s span).1 ≤ span.1 ∧ span.2 ≤ (widen s span).2 ∧
      (∀ a ∈ s, (widen s span).1 ≤ a.start ∧ a.stop ≤ (widen s span).2) ∧
      ((widen s span).1 = span.1 ∨ ∃ a ∈ s, a.start = (widen s span).1) ∧
      ((widen s span).2 = span.2 ∨ ∃ a ∈ s, a.stop = (widen s span).2) := by
  induction s generalizing span with
  | nil => simp [widen]
  | cons b s ih =>
    obtain ⟨low, high, all, first, last⟩ := ih (min span.1 b.start, max span.2 b.stop)
    simp only [widen_cons, List.mem_cons, forall_eq_or_imp, exists_eq_or_imp] at *
    refine ⟨low.trans (min_le_left _ _), (le_max_left _ _).trans high,
      ⟨⟨low.trans (min_le_right _ _), (le_max_right _ _).trans high⟩, all⟩, ?_, ?_⟩
    · rcases first with here | found
      · rcases min_choice span.1 b.start with same | same
        · exact .inl (here.trans same)
        · exact .inr (.inl (here.trans same).symm)
      · exact .inr (.inr found)
    · rcases last with here | found
      · rcases max_choice span.2 b.stop with same | same
        · exact .inl (here.trans same)
        · exact .inr (.inl (here.trans same).symm)
      · exact .inr (.inr found)

/-- The table and the times of change give the same result. -/
theorem isWithinTable_eq (s : FixedSchedule) (minCapacity maxCapacity : Int) :
    s.isWithinTable minCapacity maxCapacity = s.isWithin minCapacity maxCapacity := by
  unfold isWithinTable isWithin
  simp only
  split
  · rfl
  rename_i some
  rcases difference : Width.w64.sub s.executing.span.2 s.executing.span.1 with fault | duration
  · rfl
  have length := (Width.sub_eq_ok_iff.1 difference).2
  refine congrArg (fun test => Memory.reserve duration.toNat 8 >>= fun _ => test)
    (testRows_eq s.executing s.executing.span.1 fun a mem => ?_)
  obtain ⟨begun, upTo⟩ := (widen_spec s.executing _).2.2.1 a mem
  refine ⟨by simpa using (List.mem_filter.1 mem).2, begun, ?_⟩
  have last : s.executing.span.2 = s.executing.span.1 + duration.toNat := by omega
  exact last ▸ upTo

end Tests

/-! ## Schedules that can be represented -/

/-- Every sum of heights of some of the activities fits a word. -/
def SumsHold (s : FixedSchedule) : Prop := Width.w64.SumsHold (s.map (·.height))

instance (s : FixedSchedule) : Decidable s.SumsHold :=
  inferInstanceAs (Decidable (Width.w64.SumsHold _))

/-- Starts and ends fit words. -/
def TimesHold (s : FixedSchedule) : Prop :=
  ∀ a ∈ s, Width.w64.Holds a.start ∧ Width.w64.Holds a.stop

instance (s : FixedSchedule) : Decidable s.TimesHold :=
  inferInstanceAs (Decidable (∀ a ∈ s, _))

/-- A table of words for all times between two activities that execute has room in memory. -/
def HasRoom (s : FixedSchedule) : Prop :=
  ∀ a ∈ s.executing, ∀ b ∈ s.executing, (b.stop - a.start) * 8 ≤ Memory.greatestSize

instance (s : FixedSchedule) : Decidable s.HasRoom :=
  inferInstanceAs (Decidable (∀ a ∈ s.executing, ∀ b ∈ s.executing, _))

section Representable

variable {s s' : FixedSchedule} {minCapacity maxCapacity : Int}

theorem level_eq_sum (s : FixedSchedule) (t : Int) :
    s.level t = ((s.filter (·.executesAt t)).map (·.height)).sum := by
  rw [level, List.sum_eq_foldr, List.foldr_map]

theorem level_perm (perm : s.Perm s') (t : Int) : s.level t = s'.level t := by
  rw [level_eq_sum, level_eq_sum]
  exact ((perm.filter _).map _).sum_eq

theorem busy_perm (perm : s.Perm s') (t : Int) : s.Busy t ↔ s'.Busy t := by
  simp only [Busy, perm.mem_iff]

theorem staysWithin_perm (perm : s.Perm s') :
    s.StaysWithin minCapacity maxCapacity ↔ s'.StaysWithin minCapacity maxCapacity :=
  forall_congr' fun t => by rw [busy_perm perm, level_perm perm]

theorem TimesHold.perm (h : s.TimesHold) (perm : s.Perm s') : s'.TimesHold :=
  fun a mem => h a (perm.mem_iff.2 mem)

theorem HasRoom.perm (h : s.HasRoom) (perm : s.Perm s') : s'.HasRoom :=
  fun a mem b mem' => h a ((perm.filter _).mem_iff.2 mem) b ((perm.filter _).mem_iff.2 mem')

/-- Levels fit a word if all sums of heights do. -/
theorem SumsHold.levelAt_eq (h : s.SumsHold) (t : Int) : s.levelAt t = .ok (s.level t) := by
  induction s using List.reverseRecOn with
  | nil => rfl
  | append_singleton done a ih =>
    have known := ih (h.sublist ((List.sublist_append_left _ _).map _))
    have holds := h (((done ++ [a]).filter (·.executesAt t)).map (·.height))
      (List.mem_sublists.2 (List.filter_sublist.map _))
    rw [← level_eq_sum] at holds
    rw [levelAt_concat, known]
    simp only [bind, Except.bind]
    have concat : level (done ++ [a]) t =
        level done t + if a.executesAt t then a.height else 0 := by
      rw [level_eq_sum, level_eq_sum, List.filter_append]
      cases executes : a.executesAt t <;> simp [executes]
    rw [concat] at holds ⊢
    split
    · rename_i executes
      rw [if_pos executes] at holds
      exact Width.add_eq_ok_iff.2 ⟨holds, rfl⟩
    · rw [Int.add_zero]

/-- What does not execute plays no part. -/
theorem busy_executing (s : FixedSchedule) (t : Int) : s.executing.Busy t ↔ s.Busy t := by
  constructor
  · rintro ⟨a, mem, executes⟩
    exact ⟨a, (List.mem_filter.1 mem).1, executes⟩
  · rintro ⟨a, mem, executes⟩
    refine ⟨a, List.mem_filter.2 ⟨mem, ?_⟩, executes⟩
    simp only [FixedActivity.executesAt, Bool.and_eq_true, decide_eq_true_eq] at executes ⊢
    omega

theorem staysWithin_executing (s : FixedSchedule) :
    s.executing.StaysWithin minCapacity maxCapacity ↔ s.StaysWithin minCapacity maxCapacity := by
  refine forall_congr' fun t => ?_
  have same : s.executing.filter (·.executesAt t) = s.filter (·.executesAt t) := by
    rw [executing, List.filter_filter]
    refine List.filter_congr fun a _ => ?_
    rw [Bool.eq_iff_iff]
    simp only [FixedActivity.executesAt, Bool.and_eq_true, decide_eq_true_eq]
    omega
  rw [busy_executing, level, level, same]

/-- The test says whether the level stays within the capacity. -/
theorem isWithin_spec {answer : Bool}
    (tested : s.isWithin minCapacity maxCapacity = .ok answer) :
    answer = true ↔ s.StaysWithin minCapacity maxCapacity := by
  obtain ⟨-, -, inside, -, -⟩ := widen_spec s.executing (Width.w64.greatest, Width.w64.least)
  rw [show widen s.executing _ = s.executing.span from rfl] at inside
  unfold isWithin at tested
  simp only at tested
  split at tested
  · rename_i none
    cases tested
    refine iff_of_true rfl ((staysWithin_executing s).1 fun t ⟨a, mem, _⟩ => ?_)
    have executes : a.start < a.stop := by simpa using (List.mem_filter.1 mem).2
    have := inside a mem
    omega
  · obtain ⟨duration, -, tested⟩ := bind_eq_ok_iff.1 tested
    obtain ⟨_, -, tested⟩ := bind_eq_ok_iff.1 tested
    change s.executing.testChanges minCapacity maxCapacity = .ok answer at tested
    rcases levels_cases s.executing with fit | ⟨c, mem, -, overflows⟩
    · obtain ⟨answer', same, within⟩ := testChanges_of_forall minCapacity maxCapacity fit
      rw [tested] at same
      cases same
      exact within.trans (staysWithin_executing s)
    · rw [testChanges, mapM_levels_of_error overflows mem] at tested
      cases tested

/-- A schedule that can be represented is tested without a fault, and the test says whether the
level stays within the capacity. -/
theorem exists_isWithin (minCapacity maxCapacity : Int) (times : s.TimesHold)
    (sums : s.SumsHold) (room : s.HasRoom) :
    ∃ answer, s.isWithin minCapacity maxCapacity = .ok answer ∧
      (answer = true ↔ s.StaysWithin minCapacity maxCapacity) := by
  suffices returns : ∃ answer, s.isWithin minCapacity maxCapacity = .ok answer by
    obtain ⟨answer, tested⟩ := returns
    exact ⟨answer, tested, isWithin_spec tested⟩
  have fit : s.executing.SumsHold := sums.sublist (List.filter_sublist.map _)
  obtain ⟨answer, tested, -⟩ := testChanges_of_forall minCapacity maxCapacity fit.levelAt_eq
  obtain ⟨-, -, -, first, last⟩ := widen_spec s.executing (Width.w64.greatest, Width.w64.least)
  rw [show widen s.executing _ = s.executing.span from rfl] at first last
  unfold isWithin
  simp only
  split
  · exact ⟨true, rfl⟩
  · rename_i some
    -- both ends of the span are times of activities that execute
    obtain ⟨a, mem, start⟩ : ∃ a ∈ s.executing, a.start = s.executing.span.1 := by
      refine first.resolve_left fun beyond => some ?_
      rcases last with none | ⟨b, mem, stop⟩
      · rw [beyond, none]
        decide
      · rw [beyond, ← stop]
        exact (times b (List.mem_filter.1 mem).1).2.2
    obtain ⟨b, mem', stop⟩ : ∃ b ∈ s.executing, b.stop = s.executing.span.2 := by
      refine last.resolve_left fun beyond => some ?_
      rw [beyond, ← start]
      exact (times a (List.mem_filter.1 mem).1).1.1
    have size := room a mem b mem'
    rw [start, stop] at size
    simp only [Memory.greatestSize] at size
    have difference : Width.w64.sub s.executing.span.2 s.executing.span.1 =
        .ok (s.executing.span.2 - s.executing.span.1) := by
      refine Width.sub_eq_ok_iff.2 ⟨?_, rfl⟩
      simp only [Width.Holds, Width.least, Width.greatest]
      omega
    have reserved : Memory.reserve (s.executing.span.2 - s.executing.span.1).toNat 8 = .ok () := by
      refine Memory.reserve_eq_ok_iff.2 ?_
      simp only [Memory.greatestSize]
      omega
    rw [difference]
    simp only [bind, Except.bind]
    rw [reserved]
    exact ⟨answer, tested⟩

end Representable

/-! ## The profile of a fixed schedule -/

section Profile

variable {s s' : FixedSchedule} {a : FixedActivity} {minCapacity maxCapacity : Int}

theorem isMandatoryAt_bounds (a : FixedActivity) (t : Int) :
    a.bounds.isMandatoryAt t = a.executesAt t := by
  rw [Bool.eq_iff_iff, ActivityBounds.isMandatoryAt_eq_true_iff,
    ActivityBounds.hasMandatoryPart_eq_true_iff]
  simp only [FixedActivity.bounds, FixedActivity.executesAt, Bool.and_eq_true, decide_eq_true_eq,
    true_and]
  omega

theorem contributionAt_bounds (a : FixedActivity) (t : Int) :
    a.bounds.contributionAt t =
      ⟨if a.executesAt t then a.height else 0, if a.executesAt t then a.height else 0⟩ := by
  unfold ActivityBounds.contributionAt
  rw [isMandatoryAt_bounds]
  split
  · rfl
  · rename_i idle
    exact if_neg idle

/-- The load of a fixed schedule is its level. -/
theorem loadAt_bounds (s : FixedSchedule) (t : Int) :
    Profile.loadAt (s.map FixedActivity.bounds) t = ⟨s.level t, s.level t⟩ := by
  have sum : (s.map fun a => if a.executesAt t then a.height else 0).sum = s.level t := by
    rw [level_eq_sum]
    induction s with
    | nil => rfl
    | cons a s ih => cases executes : a.executesAt t <;> simp [executes, ih]
  simp only [Profile.loadAt, List.map_map, Function.comp_def, contributionAt_bounds, sum]

/-- A schedule of which all sums of heights and the negations of the heights fit words has a
profile, and this is consistent exactly if the level stays within the capacity. -/
theorem exists_profile (minCapacity maxCapacity : Int) (sums : s.SumsHold)
    (heights : ∀ a ∈ s, a.height ≠ Width.w64.least) :
    ∃ p, Profile.build (s.map FixedActivity.bounds) = .ok p ∧
      (p.isConsistent minCapacity maxCapacity = true ↔ s.StaysWithin minCapacity maxCapacity) := by
  have sums' : ActivityBounds.SumsHold (s.map FixedActivity.bounds) := by
    constructor <;> rw [List.map_map] <;> exact sums
  obtain ⟨p, made⟩ := Profile.exists_build_of_sumsHold sums' (sums'.abs_height_le fun b mem => by
    obtain ⟨a, inside, rfl⟩ := List.mem_map.1 mem
    exact ⟨heights a inside, heights a inside⟩)
  have ranges : ∀ b ∈ s.map FixedActivity.bounds, b.Ordered := fun b mem => by
    obtain ⟨a, -, rfl⟩ := List.mem_map.1 mem
    exact ⟨Int.le_refl _, Int.le_refl _⟩
  refine ⟨p, made, ((Profile.represents_of_build ranges made).isConsistent_iff ranges _ _).trans ?_⟩
  refine forall_congr' fun t => ?_
  rw [loadAt_bounds, Load.Meets]
  simp only [List.mem_map, exists_exists_and_eq_and, isMandatoryAt_bounds, Busy]
  exact imp_congr_right fun _ => and_comm

end Profile

/-! ## The tests agree -/

section Agreement

variable {s : FixedSchedule}

/-- The tests of a fixed schedule agree, provided that the sums of heights and the negations of the
heights fit words and that a table of all times has room. The profile can be built, the table of all
times and the times of change can be gone through, and each says that the level stays within the
capacity exactly if it does. The order of the activities plays no part. -/
theorem checks_agree (times : s.TimesHold) (sums : s.SumsHold)
    (heights : ∀ a ∈ s, a.height ≠ Width.w64.least) (room : s.HasRoom)
    (minCapacity maxCapacity : Int) :
    ∃ answer, (answer = true ↔ ∀ t, (∃ a ∈ s, a.executesAt t = true) →
        minCapacity ≤ ((s.filter (·.executesAt t)).map (·.height)).sum ∧
          ((s.filter (·.executesAt t)).map (·.height)).sum ≤ maxCapacity) ∧
      ∀ s' : FixedSchedule, s.Perm s' →
        (∃ p, Profile.build (s'.map FixedActivity.bounds) = .ok p ∧
          p.isConsistent minCapacity maxCapacity = answer) ∧
        s'.isWithin minCapacity maxCapacity = .ok answer ∧
        s'.isWithinTable minCapacity maxCapacity = .ok answer := by
  obtain ⟨answer, -, meaning⟩ := exists_isWithin minCapacity maxCapacity times sums room
  refine ⟨answer, ?_, fun s' perm => ?_⟩
  · simpa only [StaysWithin, Busy, level_eq_sum] using meaning
  have meaning' := meaning.trans (staysWithin_perm perm)
  obtain ⟨p, made, consistent⟩ := exists_profile minCapacity maxCapacity (sums.perm (perm.map _))
    fun a mem => heights a (perm.mem_iff.2 mem)
  obtain ⟨answer', tested, within⟩ := exists_isWithin minCapacity maxCapacity
    (times.perm perm) (sums.perm (perm.map _)) (room.perm perm)
  obtain rfl : answer' = answer := Bool.eq_iff_iff.2 (within.trans meaning'.symm)
  exact ⟨⟨p, made, Bool.eq_iff_iff.2 (consistent.trans within.symm)⟩, tested,
    (isWithinTable_eq s' _ _).trans tested⟩

/-- Two activities that touch, a gap, and two that cancel each other next to one without length. -/
def shifts : FixedSchedule :=
  [⟨-3, 0, 2⟩, ⟨0, 2, 3⟩, ⟨5, 7, 4⟩, ⟨5, 7, -4⟩, ⟨6, 6, 9⟩]

theorem checks_agree_shifts : shifts.TimesHold ∧ shifts.SumsHold ∧
    (∀ a ∈ shifts, a.height ≠ Width.w64.least) ∧ shifts.HasRoom ∧
    ∀ s' : FixedSchedule, shifts.Perm s' → s'.isWithin 0 3 = .ok true ∧
      s'.isWithinTable 0 3 = .ok true ∧
      ∃ p, Profile.build (s'.map FixedActivity.bounds) = .ok p ∧ p.isConsistent 0 3 = true := by
  have times : shifts.TimesHold := by decide
  have sums : shifts.SumsHold := by decide
  have heights : ∀ a ∈ shifts, a.height ≠ Width.w64.least := by decide
  have room : shifts.HasRoom := by decide
  refine ⟨times, sums, heights, room, fun s' perm => ?_⟩
  obtain ⟨answer, -, all⟩ := checks_agree times sums heights room 0 3
  have here := (all shifts (.refl _)).2.1
  have known : shifts.isWithin 0 3 = .ok true := by decide
  obtain rfl : answer = true := Except.ok.inj (here.symm.trans known)
  obtain ⟨profile, changes, rows⟩ := all s' perm
  exact ⟨changes, rows, profile⟩

/-- Without room for a table, or with a height that has no negation, one test faults where another
one answers. Between an activity at the first words and one at the last words no table can be made,
although the level is 1 wherever one of them executes; and the profile of the least height cannot be
built, although the level is found to lie below the capacity. -/
theorem exists_fault :
    (∃ s : FixedSchedule, s.TimesHold ∧ (∀ a ∈ s, a.start ≤ a.stop) ∧ s.SumsHold ∧
      (∃ p, Profile.build (s.map FixedActivity.bounds) = .ok p ∧ p.isConsistent 0 1 = true) ∧
      s.isWithin 0 1 = .error .subtractionOverflow ∧
      s.isWithinTable 0 1 = .error .subtractionOverflow) ∧
    ∃ s : FixedSchedule, s.TimesHold ∧ (∀ a ∈ s, a.start ≤ a.stop) ∧ s.SumsHold ∧
      Profile.build (s.map FixedActivity.bounds) = .error .negationOverflow ∧
      s.isWithin 0 0 = .ok false ∧ s.isWithinTable 0 0 = .ok false := by
  constructor
  · let s : FixedSchedule := [⟨Width.w64.least, Width.w64.least + 3, 1⟩,
      ⟨Width.w64.greatest - 3, Width.w64.greatest, 1⟩]
    have sums : s.SumsHold := by decide
    obtain ⟨p, made, consistent⟩ := exists_profile 0 1 sums (by decide)
    refine ⟨s, by decide, by decide, sums, ⟨p, made, consistent.2 fun t _ => ?_⟩, by decide,
      by decide⟩
    have apart : ¬ (t < Width.w64.least + 3 ∧ Width.w64.greatest - 3 ≤ t) := by
      simp only [Width.least, Width.greatest]
      omega
    rw [level_eq_sum]
    simp only [s, FixedActivity.executesAt, List.filter_cons, List.filter_nil, Bool.and_eq_true,
      decide_eq_true_eq]
    split_ifs with early late late
    · exact absurd ⟨early.2, late.1⟩ apart
    all_goals simp
  · exact ⟨[⟨0, 1, Width.w64.least⟩], by decide, by decide, by decide, by decide, by decide,
      by decide⟩

end Agreement

end FixedSchedule

end Scheduling
