import Scheduling.Proofs.FreeRun
import Scheduling.Proofs.Trace

/-!
# Runs that stay at a checkpoint or above it

Domains only grow when the search returns to an earlier checkpoint. As long as a run does not return
below a checkpoint, what this checkpoint has recorded only gets narrower, and so do all domains
since.

Results:
* `StaysAbove`: the runs that never return below a checkpoint.
* `Operation.Moves.narrows_past`: what one operation makes of a record.
* `StaysAbove.narrows`: the domains at the end of such a run.
* `StaysAbove.narrows_of_calls`: those with which a propagator is called afterwards.
-/

namespace Scheduling

/-- The runs that never return below a checkpoint. Any operation may follow any other, as in
`FreeRuns`. -/
inductive StaysAbove (level : Nat) : State → State → Prop
  | refl {c : State} : StaysAbove level c c
  | next {c c' c'' : State} {op : Operation} : StaysAbove level c c' → op.Valid c'.solver →
    op.run c'.solver = .ok c'' → level ≤ c''.solver.engine.domains.depth → StaysAbove level c c''

theorem StaysAbove.freeRuns {level : Nat} {c c' : State} (h : StaysAbove level c c') :
    FreeRuns c c' := by
  induction h with
  | refl => exact .refl
  | next _ valid ran _ ih => exact .next ih valid ran

namespace Engine

variable {e e' : Engine Rule} {level : Nat}

/-- What changes the domains of now, and nothing that was recorded before, narrows all records. -/
theorem narrows_past (depth : e'.domains.depth = e.domains.depth)
    (past : ∀ k, k < e.domains.depth → e'.domains.past k = e.domains.past k)
    (now : e.domains.Narrows e'.domains) (level : Nat) :
    (e.domains.past level).Narrows (e'.domains.past level) := by
  rcases Nat.lt_or_ge level e.domains.depth with below | above
  · rw [past level below]
    exact .refl _
  · rw [Domains.past_of_depth_le above, Domains.past_of_depth_le (depth ▸ above)]
    exact ⟨now.integer, now.interval⟩

theorem Quietly.narrows_past (h : e.Quietly e') (sane : e.Sane)
    (stays : level ≤ e'.domains.depth) : (e.domains.past level).Narrows (e'.domains.past level) := by
  cases h with
  | @newInteger row wellFormed =>
    rw [show (e.newInteger row).2.domains.past level = (e.domains.past level).addInteger row from
      Domains.past_addInteger sane.store.recordedRows row level]
    exact Domains.narrows_addInteger _ _
  | @addInterval row wellFormed =>
    rw [show (e.withDomains (e.domains.addInterval row)).domains.past level =
      (e.domains.past level).addInterval row from
        Domains.past_addInterval sane.store.recordedRows row level]
    exact Domains.narrows_addInterval _ _
  | checkpoint =>
    rw [show e.checkpoint.domains.past level = e.domains.past level from Domains.past_checkpoint ..]
    exact .refl _
  | @undoTo _ k undone =>
    obtain ⟨domains, cells, first, -, rfl⟩ := undoTo_spec undone
    obtain ⟨-, depth, -, past, -⟩ := Domains.undo_spec first
    have below : level ≤ k := stays.trans_eq depth
    show (e.domains.past level).Narrows (domains.past level)
    rw [past, Nat.min_eq_right below]
    exact .refl _
  | silent same =>
    rw [same.past]
    exact .refl _

end Engine

/-- An operation that does not return below a checkpoint narrows what this checkpoint has recorded.
-/
theorem Operation.Moves.narrows_past {op : Operation} {s : Solver Rule} {e : Engine Rule}
    {level : Nat} (h : op.Moves s e) (valid : op.Valid s) (sane : s.engine.Sane)
    (stays : level ≤ e.domains.depth) :
    (s.engine.domains.past level).Narrows (e.domains.past level) := by
  rcases h.quietly_or_propagated valid with moved | ⟨e₀, e₁, status, enters, looped, same⟩
  · exact moved.narrows_past sane stays
  · obtain ⟨-, advances, -⟩ := Engine.sane_of_loop (enters.sane sane) looped
    obtain ⟨depth, past⟩ := Guarantee.past_of_enters sane enters
    rw [same.past]
    exact (Engine.narrows_past depth past (Operation.Enters.narrows enters sane) level).trans
      (Engine.narrows_past advances.depth advances.past advances.narrows level)

namespace StaysAbove

variable {c₀ c : State}

/-- The domains at the end of the run are no wider than those at its start. -/
theorem narrows (h : StaysAbove c₀.solver.engine.domains.depth c₀ c) (accessible : Accessible c₀) :
    c₀.solver.domains.Narrows c.solver.domains := by
  have past : c₀.solver.engine.domains.rows.Narrows
      (c.solver.engine.domains.past c₀.solver.engine.domains.depth) := by
    induction h with
    | refl =>
      rw [Domains.past_depth]
      exact .refl _
    | next before valid ran stays ih =>
      exact ih.trans ((Operation.moves_of_run ran).narrows_past valid
        (sane_of_accessible (accessible.trans before.freeRuns)) stays)
  have sane := sane_of_accessible (accessible.trans h.freeRuns)
  have narrows := past.trans (sane.store.narrows_now _)
  exact ⟨narrows.integer, narrows.interval⟩

/-- So are those with which a propagator is called in the next operation. -/
theorem narrows_of_calls (h : StaysAbove c₀.solver.engine.domains.depth c₀ c)
    (accessible : Accessible c₀) {op : Operation} {p : PropagatorId} {f : Engine Rule}
    (calls : op.Calls c.solver p f) : c₀.solver.domains.Narrows f.domains :=
  (h.narrows accessible).trans
    (Operation.Calls.narrows calls (sane_of_accessible (accessible.trans h.freeRuns)))

end StaysAbove

end Scheduling
