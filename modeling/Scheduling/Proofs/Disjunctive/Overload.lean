import Mathlib.Data.List.Pairwise
import Scheduling.Disjunctive.Filter
import Scheduling.Proofs.Computation

/-!
# The overload rule separates fixed tasks

The tree knows a lower bound on the time at which any two of its tasks can be completed one after
the other. If the overload rule finds no conflict, no two tasks that are as long as the time between
their earliest start and their latest end overlap.

Results:
* `Node.Stores`: the summaries that the leaves of a tree hold, kept by `Node.set`.
* `Node.completion_add_duration_le`: two tasks, one after the other.
* `Sweep.disjoint_of_isOverloadFree`: the overload rule.
* `Tasks.disjoint_of_filter`: a filter that finds no conflict has checked it.
-/

namespace Scheduling

/-! ## Trees -/

/-- A sum is at least as great, unless it is too great for its word. -/
theorem Width.le_saturate {w : Width} {v x : Int} (le : x ≤ v) (top : x ≤ w.greatest) :
    x ≤ w.saturate v := by
  cases w <;> simp only [saturate, greatest, least] at * <;> omega

namespace Node

@[simp] theorem summary_inner (s : Summary) (left right : Node) :
    (inner s left right).summary = s :=
  rfl

/-- The tree has the given depth, its leaves hold the given summaries, and every inner node is the
merge of its halves. -/
def Stores : Nat → Node → (Nat → Summary) → Prop
  | 0, leaf s, f => s = f 0
  | depth + 1, inner s left right, f => left.summary.merge right.summary = .ok s ∧
      Stores depth left f ∧ Stores depth right fun rank => f (rank + 2 ^ depth)
  | _, _, _ => False

theorem summary_blank (depth : Nat) : (blank depth).summary = .none := by
  cases depth <;> rfl

theorem stores_blank (depth : Nat) : Stores depth (blank depth) fun _ => .none := by
  induction depth with
  | zero => rfl
  | succ depth ih =>
    refine ⟨?_, ih, ih⟩
    rw [summary_blank]
    rfl

/-- A tree whose leaves hold the same summaries. -/
theorem Stores.congr {depth : Nat} {t : Node} {f g : Nat → Summary} (h : Stores depth t f)
    (same : ∀ rank, rank < 2 ^ depth → f rank = g rank) : Stores depth t g := by
  induction depth generalizing t f g with
  | zero =>
    cases t with
    | leaf s => exact (show s = f 0 from h).trans (same 0 (by simp))
    | inner => exact h.elim
  | succ depth ih =>
    cases t with
    | leaf => exact h.elim
    | inner s left right =>
      obtain ⟨merged, low, high⟩ := h
      have pow : 2 ^ (depth + 1) = 2 ^ depth + 2 ^ depth := by omega
      exact ⟨merged, ih low fun rank lt => same rank (by omega),
        ih high fun rank lt => same _ (by omega)⟩

/-- Replacing a leaf leaves the others. -/
theorem stores_set {depth rank : Nat} {t u : Node} {f : Nat → Summary} {s : Summary}
    (h : Stores depth t f) (lt : rank < 2 ^ depth) (ran : t.set depth rank s = .ok u) :
    Stores depth u fun r => if r = rank then s else f r := by
  induction depth generalizing t u f rank with
  | zero =>
    have zero : rank = 0 := by simpa using lt
    subst zero
    cases t with
    | leaf =>
      cases ran
      simp [Stores]
    | inner => exact h.elim
  | succ depth ih =>
    cases t with
    | leaf => exact h.elim
    | inner top left right =>
      obtain ⟨-, low, high⟩ := h
      have pow : 2 ^ (depth + 1) = 2 ^ depth + 2 ^ depth := by omega
      simp only [set, Nat.pow_eq] at ran
      split at ran
      · rename_i here
        obtain ⟨half, below, ran⟩ := bind_eq_ok_iff.1 ran
        obtain ⟨halves, changed, ran⟩ := bind_eq_ok_iff.1 ran
        cases changed
        obtain ⟨top', joined, last⟩ := bind_eq_ok_iff.1 ran
        cases last
        refine ⟨joined, ih low here below, high.congr fun r inside => ?_⟩
        simp only [show r + 2 ^ depth ≠ rank by omega, if_false]
      · rename_i there
        obtain ⟨half, below, ran⟩ := bind_eq_ok_iff.1 ran
        obtain ⟨halves, changed, ran⟩ := bind_eq_ok_iff.1 ran
        cases changed
        obtain ⟨top', joined, last⟩ := bind_eq_ok_iff.1 ran
        cases last
        refine ⟨joined, low.congr fun r inside => ?_,
          (ih high (by omega : rank - 2 ^ depth < 2 ^ depth) below).congr fun r inside => ?_⟩
        · rw [if_neg (by omega)]
        · simp only [show r = rank - 2 ^ depth ↔ r + 2 ^ depth = rank by omega]

section Bounds

variable {depth : Nat} {t : Node} {f : Nat → Summary} (h : Stores depth t f)
  (nonneg : ∀ rank, 0 ≤ (f rank).duration)
include h nonneg

omit h nonneg in
/-- What the halves come to bounds what the tree comes to. -/
theorem le_of_merge {left right s : Summary} (merged : left.merge right = .ok s) :
    s.duration = left.duration + right.duration ∧ right.completion ≤ s.completion ∧
      ∀ x, x ≤ left.completion + right.duration → x ≤ Width.w64.greatest → x ≤ s.completion := by
  obtain ⟨duration, sum, rest⟩ := bind_eq_ok_iff.1 merged
  cases rest
  refine ⟨(Width.add_eq_ok_iff.1 sum).2, Int.le_max_left .., fun x le top => ?_⟩
  exact Int.le_trans (Width.le_saturate le top) (Int.le_max_right ..)

theorem duration_le : 0 ≤ t.summary.duration ∧
    ∀ rank, rank < 2 ^ depth → (f rank).duration ≤ t.summary.duration := by
  induction depth generalizing t f with
  | zero =>
    cases t with
    | leaf s =>
      have same : s = f 0 := h
      refine ⟨same ▸ nonneg 0, fun rank lt => ?_⟩
      obtain rfl : rank = 0 := by simpa using lt
      exact same ▸ Int.le_refl _
    | inner => exact h.elim
  | succ depth ih =>
    cases t with
    | leaf => exact h.elim
    | inner s left right =>
      obtain ⟨merged, low, high⟩ := h
      obtain ⟨sum, -, -⟩ := le_of_merge merged
      obtain ⟨lowNonneg, lowLe⟩ := ih low nonneg
      obtain ⟨highNonneg, highLe⟩ := ih high fun rank => nonneg _
      refine ⟨by simp only [summary_inner]; omega, fun rank lt => ?_⟩
      have pow : 2 ^ (depth + 1) = 2 ^ depth + 2 ^ depth := by omega
      simp only [summary_inner, sum]
      by_cases first : rank < 2 ^ depth
      · have := lowLe rank first
        omega
      · have := highLe (rank - 2 ^ depth) (by omega)
        rw [show rank - 2 ^ depth + 2 ^ depth = rank by omega] at this
        omega

/-- Every task can be completed no earlier than on its own. -/
theorem le_completion {rank : Nat} (lt : rank < 2 ^ depth) {x : Int} (le : x ≤ (f rank).completion)
    (top : x ≤ Width.w64.greatest) : x ≤ t.summary.completion := by
  induction depth generalizing t f rank with
  | zero =>
    obtain rfl : rank = 0 := by simpa using lt
    cases t with
    | leaf s => exact (show s = f 0 from h) ▸ le
    | inner => exact h.elim
  | succ depth ih =>
    cases t with
    | leaf => exact h.elim
    | inner s left right =>
      obtain ⟨merged, low, high⟩ := h
      obtain ⟨-, right_le, following⟩ := le_of_merge merged
      have pow : 2 ^ (depth + 1) = 2 ^ depth + 2 ^ depth := by omega
      by_cases first : rank < 2 ^ depth
      · have here := ih low nonneg first le
        have := (duration_le high fun rank => nonneg _).1
        exact following x (by omega) top
      · refine Int.le_trans (ih high (fun rank => nonneg _)
          (show rank - 2 ^ depth < 2 ^ depth by omega) ?_) right_le
        rw [show rank - 2 ^ depth + 2 ^ depth = rank by omega]
        exact le

/-- Two tasks can be completed no earlier than one after the other. -/
theorem completion_add_duration_le {first second : Nat} (order : first < second)
    (lt : second < 2 ^ depth) {x : Int} (le : x ≤ (f first).completion + (f second).duration)
    (top : x ≤ Width.w64.greatest) : x ≤ t.summary.completion := by
  induction depth generalizing t f first second with
  | zero => simp at lt; omega
  | succ depth ih =>
    cases t with
    | leaf => exact h.elim
    | inner s left right =>
      obtain ⟨merged, low, high⟩ := h
      obtain ⟨-, right_le, following⟩ := le_of_merge merged
      have pow : 2 ^ (depth + 1) = 2 ^ depth + 2 ^ depth := by omega
      obtain ⟨rest, each⟩ := duration_le high fun rank => nonneg _
      by_cases both : second < 2 ^ depth
      · have here := ih low nonneg order both le
        exact following x (by omega) top
      have second' : second - 2 ^ depth + 2 ^ depth = second := by omega
      by_cases split : first < 2 ^ depth
      · have later := each (second - 2 ^ depth) (by omega)
        rw [second'] at later
        have alone := le_completion low nonneg split (x := x - (f second).duration) (by omega)
          (by have := nonneg second; omega)
        exact following x (by omega) top
      · have first' : first - 2 ^ depth + 2 ^ depth = first := by omega
        refine Int.le_trans (ih high (fun rank => nonneg _)
          (show first - 2 ^ depth < second - 2 ^ depth by omega) (by omega) ?_) right_le
        rw [first', second']
        exact le

end Bounds

end Node

namespace CompletionTree

/-- The tree has room, and its leaves hold the given summaries. -/
def Stores (t : CompletionTree) (f : Nat → Summary) : Prop :=
  ∃ root, t.root = some root ∧ root.Stores t.depth f

theorem stores_reset (tasks : Nat) : (reset tasks).Stores fun _ => .none :=
  ⟨_, rfl, Node.stores_blank _⟩

/-- No tasks are completed before all times. -/
theorem completion_reset (tasks : Nat) : (reset tasks).completion = .ok Width.w64.least :=
  congrArg (fun s : Summary => Except.ok s.completion) (Node.summary_blank _)

theorem insert_spec {t u : CompletionTree} {f : Nat → Summary} {rank : Nat}
    {completion duration : Int} (h : t.Stores f) (ran : t.insert rank completion duration = .ok u) :
    rank < 2 ^ t.depth ∧ u.depth = t.depth ∧
      u.Stores fun r => if r = rank then ⟨completion, duration⟩ else f r := by
  obtain ⟨root, here, stores⟩ := h
  obtain ⟨_, -, ran⟩ := bind_eq_ok_iff.1 ran
  simp only [here, Nat.pow_eq] at ran
  split at ran
  · cases ran
  · rename_i inside
    have lt : rank < 2 ^ t.depth := by omega
    obtain ⟨root', replaced, last⟩ := bind_eq_ok_iff.1 ran
    cases last
    exact ⟨lt, rfl, root', rfl, Node.stores_set stores lt replaced⟩

end CompletionTree

/-! ## The overload rule -/

theorem get_eq_getElem {α : Type} {n : Nat} (v : Vector α n) (i : Fin n) :
    v.get i = getElem v i i.isLt := rfl

@[simp] theorem get_ofFn {α : Type} {n : Nat} (f : Fin n → α) (i : Fin n) :
    (Vector.ofFn f).get i = f i := by
  simp [get_eq_getElem]

theorem get_set {α : Type} {n : Nat} (v : Vector α n) (i j : Fin n) (x : α) :
    (Vector.set v i x i.isLt).get j = if i = j then x else v.get j := by
  simp [get_eq_getElem, Vector.getElem_set, Fin.ext_iff]

theorem eq_of_get {α : Type} {n : Nat} {v w : Vector α n} (same : ∀ i, v.get i = w.get i) : v = w :=
  Vector.ext fun i lt => same ⟨i, lt⟩

theorem ne_iff_exists_get_ne {α : Type} {n : Nat} {v w : Vector α n} :
    v ≠ w ↔ ∃ i, v.get i ≠ w.get i := by
  refine ⟨fun differs => ?_, fun ⟨i, ne⟩ same => ne (by rw [same])⟩
  by_contra none
  exact differs (eq_of_get fun i => Classical.byContradiction fun ne => none ⟨i, ne⟩)

namespace Sweep

variable {n : Nat} (s : Sweep n)

/-- A task `i` ends in time with another one, of which the tree knows the rank `r` and a summary,
before or after it. -/
def Leaves (leaf : Summary) (r : Nat) (i : Fin n) : Prop :=
  (r < s.rank.get i → ∀ x, x ≤ leaf.completion + s.duration.get i → x ≤ Width.w64.greatest →
      x ≤ s.endMax.get i) ∧
    (s.rank.get i < r → ∀ x, x ≤ s.endMin.get i + leaf.duration → x ≤ Width.w64.greatest →
      x ≤ s.endMax.get i)

/-- If every added task ends in time, it does so with every task that is in the tree before. -/
theorem leaves_of_fitsAll {s : Sweep n} (durations : ∀ i, 0 ≤ s.duration.get i)
    {rest : List (Fin n)} {tree : CompletionTree} {f : Nat → Summary} (stores : tree.Stores f)
    (nonneg : ∀ rank, 0 ≤ (f rank).duration) (fits : s.fitsAll tree rest = .ok true) :
    (∀ r, r < 2 ^ tree.depth → (∀ k ∈ rest, s.rank.get k ≠ r) →
        ∀ i ∈ rest, s.Leaves (f r) r i) ∧
      (rest.Pairwise (fun j i => s.rank.get i ≠ s.rank.get j) → rest.Pairwise fun j i =>
        s.Leaves ⟨s.endMin.get j, s.duration.get j⟩ (s.rank.get j) i) := by
  induction rest generalizing tree f with
  | nil => exact ⟨by simp, by simp⟩
  | cons i rest ih =>
    obtain ⟨tree', inserted, fits⟩ := bind_eq_ok_iff.1 fits
    obtain ⟨inside, depth, stores'⟩ := CompletionTree.insert_spec
      stores (show tree.insert (s.rank.get i) (s.endMin.get i) (s.duration.get i) = .ok tree' from
        inserted)
    obtain ⟨completion, reached, fits⟩ := bind_eq_ok_iff.1 fits
    split at fits
    · cases fits
    rename_i inTime
    change ¬ completion > s.endMax.get i at inTime
    have nonneg' (rank : Nat) :
        0 ≤ (if rank = s.rank.get i then (⟨s.endMin.get i, s.duration.get i⟩ : Summary)
          else f rank).duration := by
      split
      · exact durations i
      · exact nonneg rank
    obtain ⟨others, pairs⟩ := ih stores' nonneg' fits
    rw [depth] at others
    have here (r : Nat) (lt : r < 2 ^ tree.depth) (differs : s.rank.get i ≠ r) :
        s.Leaves (f r) r i := by
      obtain ⟨root, known, held⟩ := stores'
      rw [depth] at held
      have top : completion = root.summary.completion := by
        simp only [CompletionTree.completion, known] at reached
        cases reached
        rfl
      refine ⟨fun before x le bound => ?_, fun after x le bound => ?_⟩
      · have := Node.completion_add_duration_le held nonneg' before inside (x := x)
          (by rwa [if_neg (Ne.symm differs), if_pos rfl]) bound
        omega
      · have := Node.completion_add_duration_le held nonneg' after lt (x := x)
          (by rwa [if_neg (Ne.symm differs), if_pos rfl]) bound
        omega
    refine ⟨fun r lt absent k mem => ?_, fun distinct => ?_⟩
    · rcases List.mem_cons.1 mem with rfl | mem
      · exact here r lt (absent _ List.mem_cons_self)
      · have differs : r ≠ s.rank.get i := Ne.symm (absent _ List.mem_cons_self)
        have := others r lt (fun k mem => absent k (List.mem_cons_of_mem _ mem)) k mem
        rwa [if_neg differs] at this
    · obtain ⟨first, distinct⟩ := List.pairwise_cons.1 distinct
      refine List.pairwise_cons.2 ⟨fun k mem => ?_, pairs distinct⟩
      have := others (s.rank.get i) inside (fun k mem => first k mem) k mem
      rwa [if_pos rfl] at this

end Sweep

/-- The tasks take exactly the time from their earliest start to their latest end, and at some time
both of them execute. -/
def Tasks.Collide {n : Nat} (t : Tasks n) (i j : Fin n) : Prop :=
  t.startMin.get i + t.duration.get i = t.endMax.get i ∧
    t.startMin.get j + t.duration.get j = t.endMax.get j ∧
      t.endMax.get i < Width.w64.greatest ∧ t.endMax.get j < Width.w64.greatest ∧
        ∃ time, t.startMin.get i ≤ time ∧ time < t.endMax.get i ∧
          t.startMin.get j ≤ time ∧ time < t.endMax.get j

theorem Tasks.Collide.symm {n : Nat} {t : Tasks n} {i j : Fin n} (h : t.Collide i j) :
    t.Collide j i := by
  obtain ⟨first, second, top, top', time, a, b, c, d⟩ := h
  exact ⟨second, first, top', top, time, c, d, a, b⟩

/-- What is known about a sweep. -/
theorem Sweep.ofTasks_spec {n : Nat} {t : Tasks n} {orders : Orders n} {s : Sweep n}
    (h : Sweep.ofTasks t orders = .ok s) :
    s.toTasks = t ∧ (∀ i, s.endMin.get i = t.startMin.get i + t.duration.get i) ∧
      s.orders.byEndMax = Orders.sortBy t.endMax orders.byEndMax ∧
      s.rank = Orders.ranks (Orders.sortBy t.startMin orders.byStartMin) := by
  obtain ⟨_, -, h⟩ := bind_eq_ok_iff.1 h
  cases h
  exact ⟨rfl, fun i => by simp [get_eq_getElem], rfl, rfl⟩

theorem Orders.perm_sortBy {n : Nat} (key : Vector Int n) (l : List (Fin n)) :
    (sortBy key l).Perm l :=
  List.mergeSort_perm _ _

theorem Orders.pairwise_sortBy {n : Nat} (key : Vector Int n) (l : List (Fin n)) :
    (sortBy key l).Pairwise fun i j => key.get i ≤ key.get j := by
  have sorted : (sortBy key l).Pairwise fun i j => decide (key[i] ≤ key[j]) = true :=
    List.pairwise_mergeSort (fun a b c => by simp; omega) (fun a b => by simp; omega) _
  exact sorted.imp fun le => by simpa [get_eq_getElem] using le

/-- If the overload rule finds nothing, no two tasks collide. -/
theorem Sweep.disjoint_of_isOverloadFree {n : Nat} {t : Tasks n} {s : Sweep n}
    (durations : ∀ i, 0 ≤ t.duration.get i) (h : Sweep.ofTasks t (.initial n) = .ok s)
    (free : s.isOverloadFree = .ok true) {i j : Fin n} (differs : i ≠ j) : ¬ t.Collide i j := by
  obtain ⟨same, ends, byEnd, ranks⟩ := Sweep.ofTasks_spec h
  have sorted := Orders.pairwise_sortBy t.endMax (List.finRange n)
  have perm := Orders.perm_sortBy t.endMax (List.finRange n)
  have byStart := Orders.perm_sortBy t.startMin (List.finRange n)
  have rankOf (k : Fin n) :
      s.rank.get k = (Orders.sortBy t.startMin (List.finRange n)).idxOf k := by
    rw [ranks]
    simp [get_eq_getElem, Orders.ranks, Orders.initial]
  have distinct (k l : Fin n) (eq : s.rank.get k = s.rank.get l) : k = l := by
    rw [rankOf, rankOf] at eq
    exact (List.idxOf_inj (byStart.mem_iff.2 (List.mem_finRange k))).1 eq
  have allDistinct : (Orders.sortBy t.endMax (List.finRange n)).Pairwise fun j i =>
      s.rank.get i ≠ s.rank.get j :=
    (perm.nodup_iff.2 (List.nodup_finRange n)).imp fun ne eq => ne (distinct _ _ eq).symm
  rw [isOverloadFree, byEnd] at free
  have each := (leaves_of_fitsAll (fun k => by simpa [← same] using durations k)
    (CompletionTree.stores_reset n) (fun _ => Int.le_refl 0) free).2 allDistinct
  have apart : (Orders.sortBy t.endMax (List.finRange n)).Pairwise fun j i => ¬ t.Collide j i := by
    refine (sorted.and (allDistinct.and each)).imp ?_
    rintro j i ⟨le, ne, before, after⟩ collide
    obtain ⟨short, short', top, top', time, hj, hj', hi, hi'⟩ := collide
    have ej := ends j
    have ei := ends i
    subst same
    rcases Nat.lt_or_gt_of_ne ne with lt | lt
    · have room : s.endMax.get i + 1 ≤ s.endMin.get i + s.duration.get j := by omega
      have := after lt _ room (by omega)
      omega
    · have room : s.endMax.get i + 1 ≤ s.endMin.get j + s.duration.get i := by omega
      have := before lt _ room (by omega)
      omega
  have mem (k : Fin n) : k ∈ Orders.sortBy t.endMax (List.finRange n) :=
    perm.mem_iff.2 (List.mem_finRange k)
  have symm : Std.Symm fun j i : Fin n => ¬ t.Collide j i := ⟨fun _ _ ne collide => ne collide.symm⟩
  exact apart.forall (mem i) (mem j) differs

/-- A filter that does not find a conflict has made a sweep first, and found no overload. -/
theorem Tasks.exists_ofTasks_of_filter {n : Nat} {t filtered : Tasks n} {verdict : Verdict}
    (ran : t.filter = .ok (verdict, filtered)) (feasible : verdict ≠ .infeasible) :
    ∃ s, Sweep.ofTasks t (.initial n) = .ok s ∧ s.isOverloadFree = .ok true := by
  obtain ⟨⟨found, tasks⟩, looped, ran⟩ := bind_eq_ok_iff.1 ran
  have kept : found = verdict := by
    split at ran <;> cases ran <;> simp_all
  subst kept
  obtain ⟨s, opened, looped⟩ := bind_eq_ok_iff.1 looped
  obtain ⟨free, checked, looped⟩ := bind_eq_ok_iff.1 looped
  cases free with
  | false =>
    cases looped
    exact absurd rfl feasible
  | true => exact ⟨s, opened, checked⟩

/-- A filter that does not find a conflict has checked that no two of its tasks collide. -/
theorem Tasks.disjoint_of_filter {n : Nat} {t filtered : Tasks n} {verdict : Verdict}
    (durations : ∀ i, 0 ≤ t.duration.get i) (ran : t.filter = .ok (verdict, filtered))
    (feasible : verdict ≠ .infeasible) {i j : Fin n} (differs : i ≠ j) : ¬ t.Collide i j := by
  obtain ⟨s, opened, checked⟩ := Tasks.exists_ofTasks_of_filter ran feasible
  exact Sweep.disjoint_of_isOverloadFree durations opened checked differs

end Scheduling
