import Scheduling.Assignment
import Scheduling.Constraint.Cumulative
import Scheduling.Constraint.NoOverlap
import Scheduling.Proofs.Alignment
import Scheduling.Proofs.Arrivals
import Scheduling.Proofs.Cumulative.Completion
import Scheduling.Proofs.Cumulative.Enforcement
import Scheduling.Proofs.Cumulative.Filter
import Scheduling.Proofs.Cumulative.Heights
import Scheduling.Proofs.Cumulative.Shortcut
import Scheduling.Proofs.Cumulative.Tabulation
import Scheduling.Proofs.Cumulative.Trimming
import Scheduling.Proofs.Disjunctive.Arrays
import Scheduling.Proofs.Disjunctive.Bystanders
import Scheduling.Proofs.Disjunctive.Preservation
import Scheduling.Proofs.Disjunctive.RankedTasks
import Scheduling.Proofs.Disjunctive.Separation
import Scheduling.Proofs.Confinement
import Scheduling.Proofs.Denotation
import Scheduling.Proofs.Entailment
import Scheduling.Proofs.Fixpoint
import Scheduling.Proofs.HeightRange
import Scheduling.Proofs.Interval.Hull
import Scheduling.Proofs.IntervalEvents
import Scheduling.Proofs.Kept
import Scheduling.Proofs.Literals
import Scheduling.Proofs.Locality
import Scheduling.Proofs.Offers
import Scheduling.Proofs.Posting
import Scheduling.Proofs.Reachability
import Scheduling.Proofs.Refusal
import Scheduling.Proofs.Requests
import Scheduling.Proofs.Restoration
import Scheduling.Proofs.Restriction
import Scheduling.Proofs.Reversible.Members
import Scheduling.Proofs.Room
import Scheduling.Proofs.Scope
import Scheduling.Proofs.Soundness
import Scheduling.Proofs.Synchronisation
import Scheduling.Proofs.Termination
import Scheduling.Proofs.Turns
import Scheduling.Proofs.Updates
import Scheduling.Proofs.Usage
import Scheduling.Satisfaction
import Scheduling.Usage
