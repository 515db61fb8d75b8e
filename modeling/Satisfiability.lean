import Satisfiability.Main
import Satisfiability.Linear.Formula
import Satisfiability.Linear.Row
import Satisfiability.Linear.Program
import Satisfiability.Linear.Basis
import Satisfiability.Coordinator
import Satisfiability.Context.Solve
import Satisfiability.Context.ClauseFile
import Satisfiability.Context.Build
import Satisfiability.Search.ImplicationGraph
import Satisfiability.Search.AtomTable
import Satisfiability.Search.ClauseStore
import Satisfiability.Search.WatchIndex
import Satisfiability.Search.Trail
import Satisfiability.Valuation
import Satisfiability.Clause
import Satisfiability.Fault
import Satisfiability.Text.Words
import Satisfiability.Text.Cursor
import Satisfiability.Ascending
import Satisfiability.FreshNames
import Satisfiability.Propositional.Parser
import Satisfiability.Propositional.Tseitin
import Satisfiability.FirstOrder.Parser
import Satisfiability.FirstOrder.Skeleton
import Satisfiability.Proofs.Context.Answers
import Satisfiability.Proofs.Context.Reuse
import Satisfiability.Proofs.Context.Saturation
import Satisfiability.Proofs.Context.FirstUip
import Satisfiability.Proofs.Context.Progress
import Satisfiability.Proofs.Context.Concordance
import Satisfiability.Proofs.Context.Undoing
import Satisfiability.Proofs.Context.Resolving
import Satisfiability.Proofs.Context.ClauseLines
import Satisfiability.Proofs.Context.Availability
import Satisfiability.Proofs.Context.JumpLevel
import Satisfiability.Proofs.Coordinator.Levels
import Satisfiability.Proofs.Coordinator.Answers
import Satisfiability.Proofs.Coordinator.Ending
import Satisfiability.Proofs.Coordinator.Following
import Satisfiability.Proofs.Equality.Undoing
import Satisfiability.Proofs.Equality.Reasons
import Satisfiability.Proofs.Equality.LateNodes
import Satisfiability.Proofs.Propositional.Answers
import Satisfiability.Proofs.Propositional.Reading
import Satisfiability.Proofs.Propositional.Conservation
import Satisfiability.Proofs.FirstOrder.RoundTrip
import Satisfiability.Proofs.FirstOrder.Rebuilding
import Satisfiability.Proofs.Linear.Decision
import Satisfiability.Proofs.Linear.Tolerance
import Satisfiability.Proofs.Linear.Satisfaction
import Satisfiability.Proofs.Linear.Safety
import Satisfiability.Proofs.Search.PriorityQueue
import Satisfiability.Proofs.Search.Activities
