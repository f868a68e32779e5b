import CircuitGraph.Graph.Order

/-
  Sizes of graphs.
-/

---- Counting ----

namespace CircuitGraph

namespace Graph

variable {K : Type}

/- A graph and all graphs nested in it, outer ones first, each with its path. -/
def walk (g : Graph K) : List (List Nat × Graph K) :=
  g.fold (fun g bodies =>
    ([], g) :: g.opIds.flatMap (fun n =>
      ((valueOf? bodies n).getD []).map (fun entry => (n :: entry.1, entry.2))))

def kinds (g : Graph K) : List Kind :=
  g.walk.flatMap (fun entry => entry.2.ops.map Node.kind)

def kindCounts (g : Graph K) : List (Kind × Nat) :=
  (Kind.all.map (fun k => (k, g.kinds.count k))).filter (fun entry => entry.2 != 0)

def gateCount (g : Graph K) : Nat :=
  g.kinds.countP Kind.isGate

---- Depth ----

def nodeWeight (g : Graph K) (bodies : List (Nat × Except Fault Nat)) (n : Nat) :
    Except Fault Nat :=
  match g.op? n with
  | none => .ok 0
  | some node =>
    if node.kind.isGate then .ok 1 else (valueOf? bodies n).getD (.ok 0)

def greatest (ns : List Nat) : Nat :=
  ns.foldl max 0

def depthLevel (g : Graph K) (bodies : List (Nat × Except Fault Nat)) : Except Fault Nat := do
  let order ← g.topologicalOrder
  let distances ← order.foldlM (fun (done : List (Nat × Nat)) n => do
    let weight ← g.nodeWeight bodies n
    let before := greatest ((g.predecessors n).filterMap (valueOf? done))
    return (n, before + weight) :: done) []
  return greatest (distances.map Prod.snd)

/- The longest chain of gates; containers count with their own depth. -/
def depth (g : Graph K) : Except Fault Nat :=
  g.foldWith (.error .tooDeep) depthLevel

end Graph

end CircuitGraph
