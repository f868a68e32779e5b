import CircuitGraph.Graph.Rank

/-
  Convex sets of nodes.

  A set of nodes is convex if no path leaves it and comes
  back.
-/

namespace CircuitGraph

namespace Graph

variable {K : Type} [Scalar K]

def belowLimit (ranks : List (Nat × K)) (limit : K) (n : Nat) : Bool :=
  (valueOf? ranks n).any (fun rank => decide (rank < limit))

def outsideNext (g : Graph K) (ranks : List (Nat × K)) (limit : K) (nodes : List Nat) (n : Nat) :
    List Nat :=
  (g.successors n).filter (fun s => !nodes.contains s && belowLimit ranks limit s)

/- Whether no path leaves a set of nodes and comes back, told by valid ranks. -/
def isConvexUnder (g : Graph K) (ranks : List (Nat × K)) (nodes : List Nat) : Bool :=
  match Scalar.greatest? (nodes.filterMap (valueOf? ranks)) with
  | none => true
  | some limit =>
    let next := g.outsideNext ranks limit nodes
    let visited := explore id g.nodeIds next (nodes.flatMap next) []
    visited.all (fun n => (g.successors n).all (fun s => !nodes.contains s))

def isConvex (nodes : List Nat) : Edit K Bool := do
  if nodes.length < 2 then
    return true
  let ranks ← topologicalRanks
  return (← get).isConvexUnder ranks nodes

end Graph

end CircuitGraph
