import Mathlib.Algebra.Order.BigOperators.Group.List
import Mathlib.Algebra.Ring.Int.Defs
import Mathlib.Data.List.Sublists
import Scheduling.Word

/-!
# Sums of some of a list of numbers

Loads are added up in one order or another, and not always all of them. What can be met on the way
lies between two sums of some of the numbers, the negative ones and the positive ones. So it is
enough to know that these sums fit a word.

Results:
* `Width.SumsHold`: every sum of some of the numbers fits a word.
* `Width.SumsHold.holds_sum_map`, `Width.SumsHold.holds_add_sum_map`: so do the sums of numbers that
  lie between them and zero.
* `Width.sumsHold_of_length_le`: a sum of few words of 32 bits fits a word of 64 bits.
-/

namespace Scheduling

theorem sum_map_neg {α : Type} (f : α → Int) (l : List α) :
    (l.map fun x => -f x).sum = -(l.map f).sum := by
  rw [List.sum_neg, List.map_map]
  rfl

/-- The order of two sums stays when one of the entries is taken out of both. -/
theorem sum_map_sub_le {α : Type} {f g : α → Int} {l : List α} (le : ∀ x ∈ l, f x ≤ g x) {x : α}
    (mem : x ∈ l) : (l.map f).sum - f x ≤ (l.map g).sum - g x := by
  induction l with
  | nil => cases mem
  | cons y l ih =>
    have here := le y List.mem_cons_self
    have rest := List.sum_le_sum fun z mem' => le z (List.mem_cons_of_mem _ mem')
    simp only [List.map_cons, List.sum_cons]
    rcases List.mem_cons.1 mem with rfl | mem
    · omega
    · have := ih (fun z mem' => le z (List.mem_cons_of_mem _ mem')) mem
      omega

/-- Numbers between two limits have a sum between so many times these. -/
theorem sum_between {values : List Int} {low high : Int}
    (each : ∀ v ∈ values, low ≤ v ∧ v ≤ high) :
    values.length * low ≤ values.sum ∧ values.sum ≤ values.length * high := by
  rw [← Int.nsmul_eq_mul, ← Int.nsmul_eq_mul]
  exact ⟨List.card_nsmul_le_sum values low fun v mem => (each v mem).1,
    List.sum_le_card_nsmul values high fun v mem => (each v mem).2⟩

/-- The sum of numbers of which each lies between zero and another one lies between two sums of some
of the others. -/
theorem exists_sublists_around {α : Type} {f g : α → Int} {l : List α}
    (between : ∀ x ∈ l, min 0 (f x) ≤ g x ∧ g x ≤ max 0 (f x)) :
    (∃ some ∈ (l.map f).sublists, some.sum ≤ (l.map g).sum) ∧
      ∃ some ∈ (l.map f).sublists, (l.map g).sum ≤ some.sum := by
  simp only [List.mem_sublists]
  induction l with
  | nil =>
    exact ⟨⟨[], List.Sublist.refl _, Int.le_refl _⟩, [], List.Sublist.refl _, Int.le_refl _⟩
  | cons x l ih =>
    obtain ⟨⟨few, sub, le⟩, many, sub', ge⟩ := ih fun y mem => between y (List.mem_cons_of_mem _ mem)
    have here := between x List.mem_cons_self
    simp only [List.map_cons, List.sum_cons]
    rcases Int.le_total 0 (f x) with nonneg | nonpos
    · refine ⟨⟨few, sub.cons _, by omega⟩, f x :: many, sub'.cons_cons _, ?_⟩
      rw [List.sum_cons]
      omega
    · refine ⟨⟨f x :: few, sub.cons_cons _, ?_⟩, many, sub'.cons _, by omega⟩
      rw [List.sum_cons]
      omega

namespace Width

variable {w : Width} {values : List Int}

/-- Every sum of some of the numbers fits the word. -/
def SumsHold (w : Width) (values : List Int) : Prop := ∀ some ∈ values.sublists, w.Holds some.sum

instance (w : Width) (values : List Int) : Decidable (w.SumsHold values) :=
  inferInstanceAs (Decidable (∀ some ∈ values.sublists, _))

namespace SumsHold

theorem sublist (h : w.SumsHold values) {part : List Int} (sub : part.Sublist values) :
    w.SumsHold part :=
  fun some mem => h some (List.mem_sublists.2 ((List.mem_sublists.1 mem).trans sub))

theorem perm (h : w.SumsHold values) {other : List Int} (perm : values.Perm other) :
    w.SumsHold other := by
  intro some mem
  obtain ⟨some', same, inside⟩ := (List.mem_sublists.1 mem).subperm.trans perm.symm.subperm
  rw [← same.sum_eq]
  exact h some' (List.mem_sublists.2 inside)

theorem holds_of_mem (h : w.SumsHold values) {v : Int} (mem : v ∈ values) : w.Holds v := by
  simpa using h [v] (List.mem_sublists.2 (List.singleton_sublist.2 mem))

variable {α : Type} {f g : α → Int} {l : List α}
  (between : ∀ x ∈ l, min 0 (f x) ≤ g x ∧ g x ≤ max 0 (f x))
include between

/-- Numbers between zero and those of the list have a sum that fits. -/
theorem holds_sum_map (h : w.SumsHold (l.map f)) : w.Holds (l.map g).sum := by
  obtain ⟨⟨few, mem, le⟩, many, mem', ge⟩ := exists_sublists_around between
  exact ⟨(h few mem).1.trans le, ge.trans (h many mem').2⟩

/-- So does their sum with another number of the list. -/
theorem holds_add_sum_map {v : Int} (h : w.SumsHold (v :: l.map f)) :
    w.Holds (v + (l.map g).sum) := by
  obtain ⟨⟨few, mem, le⟩, many, mem', ge⟩ := exists_sublists_around between
  have least := (h (v :: few) (List.mem_sublists.2 ((List.mem_sublists.1 mem).cons_cons v))).1
  have most := (h (v :: many) (List.mem_sublists.2 ((List.mem_sublists.1 mem').cons_cons v))).2
  rw [List.sum_cons] at least most
  exact ⟨by omega, by omega⟩

end SumsHold

/-- Sums of up to `2 ^ 32` words of 32 bits fit a word of 64 bits. -/
theorem sumsHold_of_length_le (words : ∀ v ∈ values, w32.Holds v)
    (few : values.length ≤ 2 ^ 32) : w64.SumsHold values := by
  intro some mem
  have sub := List.mem_sublists.1 mem
  have between := sum_between fun v mem' => words v (sub.subset mem')
  have length := sub.length_le
  simp only [Holds, Width.least, Width.greatest] at *
  omega

end Width

end Scheduling
