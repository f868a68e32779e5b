import CircuitGraph.Proofs.Circuit.Conditions
import CircuitGraph.Proofs.Circuit.Recovery
import CircuitGraph.Proofs.Emission.Unitary
import CircuitGraph.Proofs.Graph.Depth
import CircuitGraph.Proofs.Graph.Least
import CircuitGraph.Proofs.Graph.Recognition
import CircuitGraph.Proofs.History.Atomicity
import CircuitGraph.Proofs.History.Invariant
import CircuitGraph.Proofs.History.Ranks
import CircuitGraph.Proofs.Match.Branching
import CircuitGraph.Proofs.Match.Decomposition
import CircuitGraph.Proofs.Match.Sharing
import CircuitGraph.Proofs.Optimize.Choice
import CircuitGraph.Proofs.Optimize.Fixpoint
import CircuitGraph.Proofs.Optimize.Meaning
import CircuitGraph.Proofs.Optimize.Success
import CircuitGraph.Proofs.Substitution.Detection
import CircuitGraph.Proofs.Substitution.Distance
import CircuitGraph.Rule.Classes
import CircuitGraph.Simulator.Entry
import CircuitGraph.Workspace.Substitution
