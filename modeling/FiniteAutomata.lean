import FiniteAutomata.Comparison
import FiniteAutomata.Dfa.Determinize
import FiniteAutomata.Dfa.Operation
import FiniteAutomata.Main
import FiniteAutomata.Nfa.Operation
import FiniteAutomata.Proofs.WellFormed
import FiniteAutomata.Proofs.Edits
import FiniteAutomata.Proofs.Search
import FiniteAutomata.Proofs.EpsilonClosure
import FiniteAutomata.Proofs.Saturation
import FiniteAutomata.Proofs.Passes
import FiniteAutomata.Proofs.Elimination
import FiniteAutomata.Proofs.Reachable
import FiniteAutomata.Proofs.Configuration
import FiniteAutomata.Proofs.Interning
import FiniteAutomata.Proofs.Lookup
import FiniteAutomata.Proofs.Images
import FiniteAutomata.Proofs.Determinization
import FiniteAutomata.Proofs.Paths
import FiniteAutomata.Proofs.Simulation
import FiniteAutomata.Proofs.Representation
import FiniteAutomata.Proofs.Shortlex
import FiniteAutomata.Proofs.Discovery
import FiniteAutomata.Proofs.Numbering
import FiniteAutomata.Proofs.Naming
import FiniteAutomata.Proofs.DeclarationOrder
import FiniteAutomata.Proofs.Leftovers
import FiniteAutomata.Strict
import FiniteAutomata.Proofs.Safety
import FiniteAutomata.Proofs.Assembly
import FiniteAutomata.Proofs.AccessiblePart
import FiniteAutomata.Proofs.AllOrNothing
import FiniteAutomata.Proofs.Undo
import FiniteAutomata.Proofs.Termination
import FiniteAutomata.Proofs.Idempotence
import FiniteAutomata.Proofs.Declaration
import FiniteAutomata.Proofs.BoundedChecks
import FiniteAutomata.Proofs.Connected
import FiniteAutomata.Proofs.DistinctNames
import FiniteAutomata.Proofs.TransitionTable
import FiniteAutomata.Proofs.EliminationLog
import FiniteAutomata.Proofs.Replay
import FiniteAutomata.Counted
import FiniteAutomata.Proofs.Counters
import FiniteAutomata.Proofs.Sorting
import FiniteAutomata.Proofs.Listing
import FiniteAutomata.Nfa.InPlace
import FiniteAutomata.Proofs.InPlace
import FiniteAutomata.Proofs.Complete
import FiniteAutomata.Proofs.CertainDraws
