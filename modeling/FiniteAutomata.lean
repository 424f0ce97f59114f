import FiniteAutomata.Dot
import FiniteAutomata.Graph.Shelf
import FiniteAutomata.Pattern.Parse
import FiniteAutomata.Workbench
import FiniteAutomata.Proofs.Graph
import FiniteAutomata.Proofs.Search
import FiniteAutomata.Proofs.Fragment.Path
import FiniteAutomata.Proofs.Fragment.Simulation
import FiniteAutomata.Proofs.Fragment.Combine
import FiniteAutomata.Proofs.Fragment.Concat
import FiniteAutomata.Proofs.Fragment.OfPattern
import FiniteAutomata.Proofs.Dfa.Automaton
import FiniteAutomata.Proofs.Dfa.Numbering
import FiniteAutomata.Proofs.Dfa.Subset
import FiniteAutomata.Proofs.Dfa.Live
import FiniteAutomata.Proofs.Dfa.Refinement
import FiniteAutomata.Proofs.Dfa.Quotient
import FiniteAutomata.Proofs.Dfa.Minimize
import FiniteAutomata.Proofs.Dfa.Shape
import FiniteAutomata.Proofs.Fragment.Unsupported
import FiniteAutomata.Proofs.Workbench.Run
import FiniteAutomata.Proofs.Workbench.Numbers
import FiniteAutomata.Proofs.Fragment.Counting
import FiniteAutomata.Proofs.Workbench.Counting
import FiniteAutomata.Proofs.Fragment.Missing
import FiniteAutomata.Proofs.Workbench.Broken
import FiniteAutomata.Proofs.Dfa.Members
import FiniteAutomata.Proofs.Dfa.Shortlex
import FiniteAutomata.Proofs.Fragment.Trim
import FiniteAutomata.Proofs.Dfa.Trim
import FiniteAutomata.Proofs.Workbench.Trim
import FiniteAutomata.Proofs.Fragment.Relocate
import FiniteAutomata.Proofs.Fragment.Translation
import FiniteAutomata.Proofs.Workbench.Language
import FiniteAutomata.Proofs.Dfa.Residual
import FiniteAutomata.Proofs.Dfa.Limit
import FiniteAutomata.Proofs.Fragment.Replica
import FiniteAutomata.Proofs.Fragment.Redraw
import FiniteAutomata.Proofs.Workbench.Replica
import FiniteAutomata.Proofs.Dfa.Bound
import FiniteAutomata.Proofs.Dfa.Known
import FiniteAutomata.Proofs.Dfa.FixedPoint
import FiniteAutomata.Proofs.Fragment.Associate
import FiniteAutomata.Proofs.Fragment.Regroup
import FiniteAutomata.Proofs.Fragment.Size
import FiniteAutomata.Proofs.Legible
import FiniteAutomata.Proofs.Text.Escape
import FiniteAutomata.Proofs.Drawing
import FiniteAutomata.Proofs.Dot
import FiniteAutomata.Proofs.Fragment.Drawing
import FiniteAutomata.Proofs.Dfa.Text
import FiniteAutomata.Proofs.Dfa.Drawing
import FiniteAutomata.Proofs.Workbench.Refusal
import FiniteAutomata.Proofs.Dfa.Rounds
import FiniteAutomata.Proofs.Dfa.Backward
import FiniteAutomata.Proofs.Graph.History
