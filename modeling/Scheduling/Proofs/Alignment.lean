import Scheduling.Proofs.Faultless
import Scheduling.Proofs.Offers

/-!
# A synchronisation aligns its intervals in one run

Two values of the intervals match if both are absence, or the target starts at the endpoint of the
source. A run fails exactly if no values that are left match. Otherwise it loses no match and leaves
the intervals aligned: they have the same presence, and unless both are absent the bounds of the
endpoint are those of the start of the target. Consistent bounds are then bounds of matches, all of
them, so that a further run finds nothing to do.

An optional target may become absent on the way. Its bounds, which then mean nothing any more, are
still copied to the source; this does no harm, because the source has to become absent as well.

Results:
* `Bounds.Settled.exists_time`: every time between its bounds is the endpoint of a placement.
* `Synchronisation.completes_propagate`: a run completes, and leaves aligned intervals.
* `Synchronisation.exec_propagate_of_aligned`: a run on aligned intervals changes no domain.
* `Synchronisation.propagate_exact`: a run is exact.
-/

namespace Scheduling

open Propagation

/-! ## Times within settled bounds -/

/-- Every time between the bounds of an endpoint is the one of a placement. -/
theorem Bounds.Settled.exists_time {b : Bounds} (h : b.Settled) (e : Endpoint) {time : Int}
    (low : e.least b ≤ time) (high : time ≤ e.greatest b) :
    ∃ start length, b.Admits start length ∧ e.time start (start + length) = time := by
  obtain ⟨h1, h2, h3, h4, h5, h6, h7, h8, h9, h10, h11, h12⟩ := h
  cases e with
  | start =>
    simp only [Endpoint.least, Endpoint.greatest] at low high
    refine ⟨time, max b.lengthMin (b.endMin - time), ?_, rfl⟩
    constructor <;> omega
  | stop =>
    simp only [Endpoint.least, Endpoint.greatest] at low high
    refine ⟨max b.startMin (time - b.lengthMax), time - max b.startMin (time - b.lengthMax), ?_, ?_⟩
    · constructor <;> omega
    · simp only [Endpoint.time]
      omega

theorem Bounds.Settled.least_le_greatest {b : Bounds} (h : b.Settled) (e : Endpoint) :
    e.least b ≤ e.greatest b := by
  cases e
  · exact h.start_le
  · exact h.end_le

namespace Endpoint

variable {e : Endpoint} {time start length : Int}

theorem keeps_leastBound_iff :
    (Update.bound e.leastBound time).Keeps (.placed start length) ↔
      time ≤ e.time start (start + length) := by
  cases e <;> rfl

theorem keeps_greatestBound_iff :
    (Update.bound e.greatestBound time).Keeps (.placed start length) ↔
      e.time start (start + length) ≤ time := by
  cases e <;> rfl

end Endpoint

namespace Interval

variable {v v₁ v₂ w : Interval} {e : Endpoint} {low high : Int}

section Window

variable (wellFormed : v.WellFormed)
  (raised : v.update? (.bound e.leastBound low) = some v₁)
  (lowered : v₁.update? (.bound e.greatestBound high) = some v₂)
include wellFormed raised lowered

/-- Moving both bounds of an endpoint keeps the placements that have it within them. -/
theorem admits_window_iff {start length : Int} : v₂.Admits (.placed start length) ↔
    v.Admits (.placed start length) ∧ low ≤ e.time start (start + length) ∧
      e.time start (start + length) ≤ high := by
  rw [admits_of_update? (narrows_of_update? wellFormed raised).1 lowered,
    admits_of_update? wellFormed raised, Endpoint.keeps_leastBound_iff,
    Endpoint.keeps_greatestBound_iff, and_assoc]

/-- Unless the interval becomes absent, the endpoint has bounds within the given ones. -/
theorem window_le (there : v₂.presence ≠ .absent) :
    low ≤ e.least v₂.toBounds ∧ e.greatest v₂.toBounds ≤ high := by
  have wellFormed₂ := (narrows_of_update? (narrows_of_update? wellFormed raised).1 lowered).1
  have ordered := Bounds.Settled.least_le_greatest wellFormed₂ e
  obtain ⟨start, length, admits, first⟩ :=
    Bounds.Settled.exists_time wellFormed₂ e (Int.le_refl _) ordered
  obtain ⟨start', length', admits', last⟩ :=
    Bounds.Settled.exists_time wellFormed₂ e ordered (Int.le_refl _)
  have above := ((admits_window_iff wellFormed raised lowered).1 ⟨there, admits⟩).2.1
  have below := ((admits_window_iff wellFormed raised lowered).1 ⟨there, admits'⟩).2.2
  exact ⟨first ▸ above, last ▸ below⟩

/-- If the given bounds lie within those of the endpoint, it has them afterwards. -/
theorem window_eq (there : v.presence ≠ .absent) (above : e.least v.toBounds ≤ low)
    (ordered : low ≤ high) (below : high ≤ e.greatest v.toBounds) :
    e.least v₂.toBounds = low ∧ e.greatest v₂.toBounds = high := by
  -- the placements at both bounds stay
  obtain ⟨start, length, admits, first⟩ := wellFormed.exists_time e above (ordered.trans below)
  obtain ⟨start', length', admits', last⟩ := wellFormed.exists_time e (above.trans ordered) below
  have stays := (admits_window_iff wellFormed raised lowered).2
    ⟨⟨there, admits⟩, first.ge, first.trans_le ordered⟩
  have stays' := (admits_window_iff wellFormed raised lowered).2
    ⟨⟨there, admits'⟩, ordered.trans last.ge, last.le⟩
  obtain ⟨inside, inside'⟩ := window_le wellFormed raised lowered stays.1
  have := (Endpoint.time_mem (e := e) stays.2).1
  have := (Endpoint.time_mem (e := e) stays'.2).2
  omega

end Window

end Interval

/-! ## Stores with two known rows -/

/-- The rows of two intervals and the cells of a store. -/
structure Store.Rows (i j : IntervalId) (cells : Cells) (v w : Interval) (s : Store) : Prop where
  first : s.domains.interval i = .ok v
  second : s.domains.interval j = .ok w
  wellFormed : v.WellFormed
  wellFormed' : w.WellFormed
  cells : s.cells = cells

namespace Store.Rows

variable {i j : IntervalId} {cells : Cells} {v w : Interval} {s : Store}

theorem swap (h : s.Rows i j cells v w) : s.Rows j i cells w v :=
  ⟨h.second, h.first, h.wellFormed', h.wellFormed, h.cells⟩

/-- An update of the first interval leaves the second one as it is. -/
theorem update (h : s.Rows i j cells v w) (distinct : i ≠ j) (u : Update) :
    Completes (Propagation.update i u) s fun _ s' =>
      ∃ v', v.update? u = some v' ∧ s'.Rows i j cells v' w := by
  refine completes_update h.first u fun v' d updated wrote => ⟨v', updated, ?_⟩
  obtain ⟨old, new, row, updated', rows, -⟩ := Domains.interval_of_update wrote
  obtain rfl : v = old := Except.ok.inj (h.first.symm.trans row)
  obtain rfl : v' = new := Option.some.inj (updated.symm.trans updated')
  exact ⟨(rows i).trans (if_pos rfl), (rows j).trans ((if_neg distinct).trans h.second),
    (Interval.narrows_of_update? h.wellFormed updated).1, h.wellFormed', h.cells⟩

end Store.Rows

namespace Synchronisation

/-! ## Matches -/

/-- The two values are left, and they match: both are absence, or the target starts at the endpoint
of the source. -/
structure Matches (p : Synchronisation) (v w : Interval) (x y : IntervalValue) : Prop where
  source : v.Admits x
  target : w.Admits y
  meets : y.time? .start = x.time? p.point

/-- The intervals have the same presence, and unless they are absent the bounds of the endpoint are
those of the start of the target. -/
structure Aligned (p : Synchronisation) (v w : Interval) : Prop where
  presence : w.presence = v.presence
  least : v.presence ≠ .absent → p.point.least v.toBounds = w.startMin
  greatest : v.presence ≠ .absent → p.point.greatest v.toBounds = w.startMax

/-- What is left of the rows `v` and `w` in `v'` and `w'`: the intervals have the same presence, no
match is lost, every presence that is still possible belongs to a match, and unless both intervals
are absent every bound is attained by a match. -/
structure Exact (p : Synchronisation) (v w v' w' : Interval) : Prop where
  presence : w'.presence = v'.presence
  kept : ∀ x y, p.Matches v' w' x y ↔ p.Matches v w x y
  absence : v'.presence ≠ .present → p.Matches v' w' .absent .absent
  placement : v'.presence ≠ .absent → ∃ start length start' length',
    p.Matches v' w' (.placed start length) (.placed start' length')
  source : v'.presence ≠ .absent → ∀ which : Bound, ∃ start length start' length',
    p.Matches v' w' (.placed start length) (.placed start' length') ∧
      which.measure start length = v'.limit which
  target : v'.presence ≠ .absent → ∀ which : Bound, ∃ start length start' length',
    p.Matches v' w' (.placed start length) (.placed start' length') ∧
      which.measure start' length' = w'.limit which

variable {p : Synchronisation} {v w : Interval}

theorem Matches.mono {v' w' : Interval} {x y : IntervalValue} (narrows : v.Narrows v')
    (narrows' : w.Narrows w') (h : p.Matches v' w' x y) : p.Matches v w x y :=
  ⟨narrows.admits h.source, narrows'.admits h.target, h.meets⟩

namespace Aligned

variable (h : p.Aligned v w)
include h

theorem matches_absent (possible : v.presence ≠ .present) : p.Matches v w .absent .absent :=
  ⟨possible, by simpa [Interval.Admits, h.presence] using possible, rfl⟩

variable (there : v.presence ≠ .absent) {start length : Int}
include there

/-- Every placement of the source belongs to a match. -/
theorem exists_target (wellFormed : w.WellFormed) (admits : v.toBounds.Admits start length) :
    ∃ start' length', p.Matches v w (.placed start length) (.placed start' length') := by
  obtain ⟨low, high⟩ := Endpoint.time_mem (e := p.point) admits
  rw [h.least there] at low
  rw [h.greatest there] at high
  obtain ⟨start', length', admits', same⟩ :=
    Bounds.Settled.exists_time wellFormed .start low high
  refine ⟨start', length', ⟨there, admits⟩, ⟨h.presence ▸ there, admits'⟩, ?_⟩
  rw [Endpoint.time?_placed, Endpoint.time?_placed, same]

/-- Every placement of the target belongs to a match. -/
theorem exists_source (wellFormed : v.WellFormed) (admits : w.toBounds.Admits start length) :
    ∃ start' length', p.Matches v w (.placed start' length') (.placed start length) := by
  obtain ⟨start', length', admits', same⟩ := Bounds.Settled.exists_time wellFormed p.point
    ((h.least there).trans_le admits.startMin_le)
    (admits.le_startMax.trans_eq (h.greatest there).symm)
  refine ⟨start', length', ⟨there, admits'⟩, ⟨h.presence ▸ there, admits⟩, ?_⟩
  rw [Endpoint.time?_placed, Endpoint.time?_placed, same]
  rfl

end Aligned

/-- Aligned intervals that have lost no match are exact. -/
theorem Aligned.exact {v' w' : Interval} (h : p.Aligned v' w') (wellFormed : v'.WellFormed)
    (wellFormed' : w'.WellFormed) (kept : ∀ x y, p.Matches v' w' x y ↔ p.Matches v w x y) :
    p.Exact v w v' w' where
  presence := h.presence
  kept := kept
  absence := h.matches_absent
  placement there := by
    obtain ⟨start, length, admits⟩ := Bounds.Settled.exists_admits wellFormed
    exact ⟨start, length, h.exists_target there wellFormed' admits⟩
  source there which := by
    obtain ⟨start, length, admits, attained⟩ := Bounds.Settled.exists_attains wellFormed which
    obtain ⟨start', length', found⟩ := h.exists_target there wellFormed' admits
    exact ⟨start, length, start', length', found, attained⟩
  target there which := by
    obtain ⟨start', length', admits, attained⟩ := Bounds.Settled.exists_attains wellFormed' which
    obtain ⟨start, length, found⟩ := h.exists_source there wellFormed admits
    exact ⟨start, length, start', length', found, attained⟩

/-- Something is left of exact intervals. -/
theorem Exact.exists_matches {v' w' : Interval} (h : p.Exact v w v' w') :
    ∃ x y, p.Matches v w x y := by
  by_cases absent : v'.presence = .absent
  · exact ⟨_, _, (h.kept _ _).1 (h.absence (by simp [absent]))⟩
  · obtain ⟨_, _, _, _, found⟩ := h.placement absent
    exact ⟨_, _, (h.kept _ _).1 found⟩

/-! ## A run leaves aligned intervals -/

section Run

variable {cells : Cells} {s : Store} {context : Context}

/-- The second interval gets the presence of the first one, if that is known. -/
theorem completes_copyPresence {i j : IntervalId} (h : s.Rows i j cells v w) (distinct : i ≠ j) :
    Completes (copyPresence i j) s fun _ s' => ∃ w', s'.Rows i j cells v w' ∧
      w'.toBounds = w.toBounds ∧ (w.presence = .optional ∨ w'.presence = w.presence) ∧
      w'.presence = if v.presence = .optional then w.presence else v.presence := by
  refine completes_inspect_bind h.first ?_
  cases known : v.presence with
  | optional => exact completes_pure ⟨w, h, rfl, .inr rfl, by simp⟩
  | present =>
    refine (h.swap.update distinct.symm .present).weaken fun _ s' ⟨w', updated, rows⟩ => ?_
    obtain ⟨rfl, possible⟩ := Interval.of_update?_present updated
    refine ⟨_, rows.swap, rfl, ?_, by simp⟩
    cases here : w.presence <;> simp_all
  | absent =>
    refine (h.swap.update distinct.symm .absent).weaken fun _ s' ⟨w', updated, rows⟩ => ?_
    obtain ⟨rfl, possible⟩ := Interval.of_update?_absent updated
    refine ⟨_, rows.swap, rfl, ?_, by simp⟩
    cases here : w.presence <;> simp_all

/-- The presences agree afterwards, and an absence stays. -/
theorem completes_agree (h : s.Rows p.source p.target cells v w) (distinct : p.source ≠ p.target) :
    Completes p.agree s fun _ s' => ∃ v' w', s'.Rows p.source p.target cells v' w' ∧
      v'.toBounds = v.toBounds ∧ w'.toBounds = w.toBounds ∧ w'.presence = v'.presence ∧
      (w.presence = .absent → w'.presence = .absent) := by
  refine completes_bind (completes_copyPresence h distinct)
    fun _ s₁ ⟨w', rows, bounds, fits, there⟩ => ?_
  refine (completes_copyPresence rows.swap distinct.symm).weaken
    fun _ s₂ ⟨v', rows', bounds', fits', here⟩ => ?_
  refine ⟨v', w', rows'.swap, bounds', bounds, ?_⟩
  cases source : v.presence <;> cases target : w.presence <;> simp_all

/-- A run completes. If it succeeds, the intervals are aligned. -/
theorem completes_propagate (h : s.Rows p.source p.target cells v w)
    (distinct : p.source ≠ p.target) (inside : context.activity.index < cells.values.size) :
    Completes (p.propagate context) s fun _ s' => ∃ v' w' cells',
      s'.Rows p.source p.target cells' v' w' ∧ cells'.values.size = cells.values.size ∧
        p.Aligned v' w' := by
  refine completes_bind (completes_agree h distinct) fun _ s₁ agreed => ?_
  obtain ⟨v₁, w₁, rows₁, -, -, presence₁, -⟩ := agreed
  refine completes_inspect_bind rows₁.first ?_
  split
  · rename_i absent
    have absent : v₁.presence = .absent := by simpa [Interval.isAbsent] using absent
    refine completes_writeCell (by rw [rows₁.cells]; exact inside) fun cells' assigned => ?_
    refine ⟨v₁, w₁, cells', ⟨rows₁.first, rows₁.second, rows₁.wellFormed, rows₁.wellFormed', rfl⟩,
      ?_, presence₁, absurd absent, absurd absent⟩
    rw [(Cells.evolves_of_assign assigned).size, rows₁.cells]
  rename_i there
  have there : v₁.presence ≠ .absent := by simpa [Interval.isAbsent] using there
  refine completes_bind (rows₁.swap.update distinct.symm _) fun _ s₂ updated => ?_
  obtain ⟨w₂, raised, rows₂⟩ := updated
  refine completes_bind (rows₂.update distinct.symm _) fun _ s₃ updated => ?_
  obtain ⟨w₃, lowered, rows₃⟩ := updated
  refine completes_inspect_bind rows₃.first ?_
  refine completes_bind (rows₃.swap.update distinct _) fun _ s₄ updated => ?_
  obtain ⟨v₂, raised', rows₄⟩ := updated
  refine completes_bind (rows₄.update distinct _) fun _ s₅ updated => ?_
  obtain ⟨v₃, lowered', rows₅⟩ := updated
  refine (completes_agree rows₅ distinct).weaken fun _ s₆ agreed => ?_
  obtain ⟨v₄, w₄, rows₆, bounds, bounds', presence₄, leaves⟩ := agreed
  refine ⟨v₄, w₄, cells, rows₆, rfl, ?_⟩
  by_cases gone : w₃.presence = .absent
  · -- a target that became absent on the way takes the source with it
    have absent : v₄.presence = .absent := presence₄ ▸ leaves gone
    exact ⟨presence₄, absurd absent, absurd absent⟩
  · obtain ⟨low, high⟩ := Interval.window_le (e := .start) rows₁.wellFormed' raised lowered gone
    obtain ⟨least, greatest⟩ := Interval.window_eq rows₁.wellFormed raised' lowered' there low
      (Bounds.Settled.start_le rows₃.wellFormed) high
    exact ⟨presence₄, fun _ => by rw [bounds, bounds', least],
      fun _ => by rw [bounds, bounds', greatest]⟩

/-! ## A run on aligned intervals -/

/-- A presence is copied to an interval that has it already. -/
theorem exec_copyPresence_of_eq {i j : IntervalId} (h : s.Rows i j cells v w)
    (same : w.presence = v.presence) : (copyPresence i j).exec s = .ok (.ok (), s) := by
  refine exec_inspect_bind_eq_ok_iff.2 ⟨v, h.first, ?_⟩
  cases known : v.presence with
  | optional => rfl
  | present =>
    refine exec_update_of_keeps h.second h.wellFormed' fun value admits absent => ?_
    subst absent
    exact admits (same.trans known)
  | absent =>
    refine exec_update_of_keeps h.second h.wellFormed' fun value admits => ?_
    cases value with
    | absent => rfl
    | placed start length => exact absurd (same.trans known) admits.1

theorem exec_agree_of_eq (h : s.Rows p.source p.target cells v w)
    (same : w.presence = v.presence) : p.agree.exec s = .ok (.ok (), s) :=
  exec_bind_succeeds_iff.2 ⟨(), s, exec_copyPresence_of_eq h same,
    exec_copyPresence_of_eq h.swap same.symm⟩

/-- A bound is moved to where it is already. -/
theorem exec_tighten_of_keeps {i : IntervalId} (row : s.domains.interval i = .ok v)
    (wellFormed : v.WellFormed) (which : Bound) {value : Int}
    (keeps : ∀ start length, v.toBounds.Admits start length → which.Keeps value start length) :
    (tighten i which value).exec s = .ok (.ok (), s) := by
  refine exec_update_of_keeps row wellFormed fun value admits => ?_
  cases value with
  | absent => trivial
  | placed start length => exact keeps start length admits.2

/-- A run on aligned intervals changes no domain, and nothing else either unless they are absent.
-/
theorem exec_propagate_of_aligned (h : s.Rows p.source p.target cells v w) (aligned : p.Aligned v w)
    (inside : context.activity.index < cells.values.size) :
    ∃ s', (p.propagate context).exec s = .ok (.ok (), s') ∧ s'.domains = s.domains ∧
      (v.presence ≠ .absent → s' = s) := by
  have agreed := exec_agree_of_eq h aligned.presence
  by_cases absent : v.presence = .absent
  · have off : Returns (setActive context false) s fun _ s' => s'.domains = s.domains :=
      returns_writeCell (by rw [h.cells]; exact inside) fun _ _ => rfl
    obtain ⟨⟨⟩, s', ran, same⟩ := off
    refine ⟨s', exec_bind_succeeds_iff.2 ⟨(), s, agreed, exec_inspect_bind_eq_ok_iff.2
      ⟨v, h.first, ?_⟩⟩, same, absurd absent⟩
    rw [if_pos (by simpa [Interval.isAbsent] using absent)]
    exact ran
  · refine ⟨s, exec_bind_succeeds_iff.2 ⟨(), s, agreed, exec_inspect_bind_eq_ok_iff.2
      ⟨v, h.first, ?_⟩⟩, rfl, fun _ => rfl⟩
    rw [if_neg (by simpa [Interval.isAbsent] using absent)]
    have least := aligned.least absent
    have greatest := aligned.greatest absent
    have targetLow := exec_tighten_of_keeps h.second h.wellFormed' .startMin
      fun _ _ admits => least.trans_le admits.startMin_le
    have targetHigh := exec_tighten_of_keeps h.second h.wellFormed' .startMax
      fun _ _ admits => admits.le_startMax.trans_eq greatest.symm
    have sourceLow := exec_tighten_of_keeps h.first h.wellFormed _
      fun _ _ admits => Endpoint.keeps_leastBound
        (least.symm.trans_le (Endpoint.time_mem admits).1)
    have sourceHigh := exec_tighten_of_keeps h.first h.wellFormed _
      fun _ _ admits => Endpoint.keeps_greatestBound
        ((Endpoint.time_mem admits).2.trans_eq greatest)
    exact exec_bind_succeeds_iff.2 ⟨(), s, targetLow, exec_bind_succeeds_iff.2 ⟨(), s, targetHigh,
      exec_inspect_bind_eq_ok_iff.2 ⟨w, h.second, exec_bind_succeeds_iff.2 ⟨(), s, sourceLow,
        exec_bind_succeeds_iff.2 ⟨(), s, sourceHigh, agreed⟩⟩⟩⟩⟩

end Run

/-! ## A run is exact -/

section Exact

variable {s : Store} {context : Context}

/-- A match is not lost. -/
theorem exists_exec_of_matches (wellFormed : s.domains.WellFormed) (distinct : p.source ≠ p.target)
    (row : s.domains.interval p.source = .ok v) (row' : s.domains.interval p.target = .ok w)
    (inside : context.activity.index < s.cells.values.size) {x y : IntervalValue}
    (found : p.Matches v w x y) :
    ∃ s', (p.propagate context).exec s = .ok (.ok (), s') ∧ ∀ v' w',
      s'.domains.interval p.source = .ok v' → s'.domains.interval p.target = .ok w' →
        p.Matches v' w' x y := by
  obtain ⟨⟨⟩, s', ran, first, second⟩ :=
    returns_of_meets wellFormed distinct row row' inside found.source found.target found.meets
  exact ⟨s', ran, fun v' w' here here' => ⟨first v' here, second w' here', found.meets⟩⟩

/-- A synchronisation of two intervals is exact in one run. The run fails exactly if no two values
that are left match. Otherwise what it leaves is exact, and a further run succeeds and changes no
domain; it changes nothing at all, unless both intervals are absent. -/
theorem propagate_exact (wellFormed : s.domains.WellFormed) (distinct : p.source ≠ p.target)
    (row : s.domains.interval p.source = .ok v) (row' : s.domains.interval p.target = .ok w)
    (inside : context.activity.index < s.cells.values.size) :
    ∃ status s', (p.propagate context).exec s = .ok (status, s') ∧
      ((∃ cause, status = .error cause) ↔ ∀ x y, ¬ p.Matches v w x y) ∧
      (status = .ok () → ∃ v' w', s'.domains.interval p.source = .ok v' ∧
        s'.domains.interval p.target = .ok w' ∧ p.Exact v w v' w' ∧
        ∃ s'', (p.propagate context).exec s' = .ok (.ok (), s'') ∧ s''.domains = s'.domains ∧
          (v'.presence ≠ .absent → s'' = s')) := by
  have rows : s.Rows p.source p.target s.cells v w :=
    ⟨row, row', wellFormed.interval _ v row, wellFormed.interval _ w row', rfl⟩
  obtain ⟨status, s', ran, aligns⟩ := completes_propagate rows distinct inside
  have performs : Performs [context.activity] (p.propagate context) :=
    p.performs_propagate (by simp)
  have narrows := (performs.evolves _ _ _ wellFormed ran).domains.narrows
  refine ⟨status, s', ran, ?_⟩
  cases status with
  | error cause =>
    refine ⟨⟨fun _ x y found => ?_, fun _ => ⟨cause, rfl⟩⟩, by rintro ⟨⟩⟩
    obtain ⟨_, ran', -⟩ := exists_exec_of_matches wellFormed distinct row row' inside found
    rw [ran] at ran'
    cases ran'
  | ok =>
    obtain ⟨v', w', cells, rows', size, aligned⟩ := aligns () rfl
    obtain ⟨_, here, narrower⟩ := narrows.interval _ v row
    obtain rfl := Except.ok.inj (rows'.first.symm.trans here)
    obtain ⟨_, here', narrower'⟩ := narrows.interval _ w row'
    obtain rfl := Except.ok.inj (rows'.second.symm.trans here')
    have exact := aligned.exact (v := v) (w := w) rows'.wellFormed rows'.wellFormed' fun x y =>
      ⟨Matches.mono narrower narrower', fun found => by
        obtain ⟨_, ran', kept⟩ := exists_exec_of_matches wellFormed distinct row row' inside found
        rw [ran] at ran'
        cases ran'
        exact kept v' w' here here'⟩
    obtain ⟨x, y, found⟩ := exact.exists_matches
    refine ⟨iff_of_false (by rintro ⟨_, ⟨⟩⟩) fun none => none x y found, fun _ =>
      ⟨v', w', here, here', exact, exec_propagate_of_aligned rows' aligned ?_⟩⟩
    rw [size]
    exact inside

/-! ## A visit that is followed by a present one -/

namespace Visits

/-- An optional interval, and a present one that starts when it ends. -/
def operations : List Operation :=
  [.newInterval ⟨0, 7, 3, 10, 3, 3⟩ .optional, .newInterval ⟨5, 20, 7, 24, 2, 4⟩ .present]

def store : Store := ⟨(State.reach operations).solver.domains, Cells.empty.grow 1, []⟩

def visits : Synchronisation := ⟨⟨0⟩, ⟨1⟩, .stop⟩

def first : Interval := ⟨⟨0, 7, 3, 10, 3, 3⟩, .optional⟩

def second : Interval := ⟨⟨5, 20, 7, 24, 2, 4⟩, .present⟩

theorem wellFormed : store.domains.WellFormed :=
  (sane_of_accessible (reachable_reach operations).accessible).wellFormed_now

end Visits

open Visits in
/-- The first interval becomes present. -/
theorem propagate_exact_visits : store.domains.WellFormed ∧ visits.source ≠ visits.target ∧
    store.domains.interval visits.source = .ok first ∧
    store.domains.interval visits.target = .ok second ∧ 0 < store.cells.values.size ∧
    ∃ s' v' w', (visits.propagate ⟨⟨0⟩, ⟨0⟩⟩).exec store = .ok (.ok (), s') ∧
      s'.domains.interval ⟨0⟩ = .ok v' ∧ s'.domains.interval ⟨1⟩ = .ok w' ∧
      visits.Exact first second v' w' ∧ v'.presence = .present ∧
      (visits.propagate ⟨⟨0⟩, ⟨0⟩⟩).exec s' = .ok (.ok (), s') := by
  have distinct : visits.source ≠ visits.target := by decide
  have row : store.domains.interval visits.source = .ok first := by cbv
  have row' : store.domains.interval visits.target = .ok second := by cbv
  have inside : 0 < store.cells.values.size := by cbv
  have found : visits.Matches first second (.placed 2 3) (.placed 5 2) := by
    refine ⟨⟨by decide, ?_⟩, ⟨by decide, ?_⟩, rfl⟩ <;> constructor <;> decide
  refine ⟨wellFormed, distinct, row, row', inside, ?_⟩
  obtain ⟨status, s', ran, fails, leaves⟩ :=
    propagate_exact wellFormed distinct row row'
      (show (⟨⟨0⟩, ⟨0⟩⟩ : Context).activity.index < store.cells.values.size from inside)
  cases status with
  | error cause => exact absurd found (fails.1 ⟨cause, rfl⟩ _ _)
  | ok =>
    obtain ⟨v', w', here, here', exact, s'', again, -, same⟩ := leaves rfl
    have present : v'.presence = .present := by
      by_contra possible
      exact ((exact.kept _ _).1 (exact.absence possible)).target rfl
    rw [same (by simp [present])] at again
    exact ⟨s', v', w', ran, here, here', exact, present, again⟩

end Exact

end Synchronisation

end Scheduling
