import CircuitGraph.Graph.Copy
import CircuitGraph.Substitution.Acyclic
import CircuitGraph.Substitution.Plan

/-
  Carrying out substitutions.

  The matched operations are taken out, a copy of the
  replacement is put in, and the boundary is joined by
  position.
-/

---- Steps ----

namespace CircuitGraph

/-
  A substitution that was carried out: the operations removed
  and inserted, the operations near by that may have new
  neighbours, and the path of the nested graph it was done in.
-/
structure Step where
  rule : Nat
  name : Value
  root : Slot
  removed : List Slot
  inserted : List Nat
  touched : List Slot
  path : List Nat
  deriving Repr, Inhabited

---- Taking Out and Putting In ----

namespace Graph

variable {K : Type}

def detach (s : Slot) : Edit K (Node (Graph K) × List Wire) := do
  let g ← get
  if !g.hasNode s.toNat then
    throw (.unknownKey s.toValue)
  let ws := g.incidentWires s.toNat
  let node ← removeOp s.toNat s.toValue true
  return (node, ws)

variable [Scalar K]

def addCopy (node : Node (Graph K)) : Edit K (Nat × Nat) := do
  let n ← addOp node.kind node.params (node.body.map Graph.copy)
  return (node.id, n)

/- The host pin that stands for the start of a wire of the replacement. -/
def spliceSource (p : Plan) (ids : List (Nat × Nat)) (src : Pin) : Except Fault Pin :=
  if src.node = inputId then
    match p.sources[src.index]? with
    | some pin => .ok pin
    | none => .error .outOfBounds
  else
    match valueOf? ids src.node with
    | some n => .ok ⟨.number n, src.slot⟩
    | none => .error (.unknownKey (.whole src.node))

def spliceTargets (p : Plan) (ids : List (Nat × Nat)) (dst : Pin) : Except Fault (List Pin) :=
  if dst.node = outputId then
    match p.consumers[dst.index]? with
    | some pins => .ok pins
    | none => .error .outOfBounds
  else
    match valueOf? ids dst.node with
    | some n => .ok [⟨.number n, dst.slot⟩]
    | none => .error (.unknownKey (.whole dst.node))

def spliceWire (p : Plan) (ids : List (Nat × Nat)) (w : Wire) : Edit K Unit := do
  let src ← Edit.ofExcept (spliceSource p ids w.src)
  let dsts ← Edit.ofExcept (spliceTargets p ids w.dst)
  dsts.forM (join src)

def splice (replacement : Graph K) (p : Plan) : Edit K Unit := do
  let ids ← replacement.sortedOps.mapM addCopy
  replacement.sortedWires.forM (spliceWire p ids)

end Graph

namespace Plan

def consumerNodes (p : Plan) : List Slot :=
  p.consumers.flatMap (fun pins => pins.map Pin.owner)

def sourceNodes (p : Plan) : List Slot :=
  p.sources.map Pin.owner

end Plan

---- Putting Back ----

namespace Graph

variable {K : Type} [Scalar K]

def withdraw (n : Nat) : Edit K Unit := do
  if (← get).hasNode n then
    let _ ← removeOp n (.whole n) true

def cutPassing (p : Plan) (consumer : Pin) : Edit K Unit := do
  match (← get).wireInto? consumer.node consumer.index with
  | some w => if p.sources.any w.src.same then cut w
  | none => return ()

def restoreWire (w : Wire) : Edit K Unit := do
  let present := ((← get).wireInto? w.dst.node w.dst.index).any w.same
  if !present then
    join w.src w.dst

/- Puts everything back that a substitution took out. -/
def rollback (p : Plan) (removed : List (Node (Graph K) × List Wire)) (inserted : List Nat) :
    Edit K Unit := do
  inserted.forM withdraw
  p.consumers.flatten.forM (cutPassing p)
  removed.forM (fun entry => modify (fun g => g.insertNode entry.1))
  removed.forM (fun entry => entry.2.forM restoreWire)

end Graph

---- Substitutions ----

namespace RuleSet

variable {K : Type} [Scalar K]

def idsSince (start : Nat) (g : Graph K) : List Nat :=
  (List.range (g.nextId - start)).map (fun i => start + i)

def insertReplacement (replacement : Graph K) (p : Plan) (start : Nat) : Edit K Unit := do
  Graph.splice replacement p
  let g ← get
  let near := idsSince start g ++ p.consumerNodes.map Slot.toNat
  Edit.ofExcept (g.searchCycleFrom (sortIds near) [])

def carryOut (rs : RuleSet K) (p : Plan) : Edit K Step := do
  let m := p.found
  let rule ← Edit.ofExcept (rs.rule m.rule)
  let removed ← m.nodes.mapM Graph.detach
  let start := (← get).nextId
  tryCatch (insertReplacement rule.replacement p start) (fun fault => do
    match fault with
    | .structural cause =>
      Graph.rollback p removed (idsSince start (← get))
      throw (.unsound (rule.nameOr m.rule) m.root cause)
    | fault => throw fault)
  let inserted := idsSince start (← get)
  let near := sortSlots (inserted.map .number ++ p.sourceNodes ++ p.consumerNodes)
  let touched := near.filter (fun s => isOpId s.toNat)
  return ⟨m.rule, rule.name, m.root, m.nodes, inserted, touched, []⟩

def commit (rs : RuleSet K) (p : Plan) : Edit K Step := do
  let (fresh, _) ← rs.refresh p
  rs.carryOut fresh

def apply (rs : RuleSet K) (m : Match) : Edit K Step := do
  rs.commit (← rs.plan m)

end RuleSet

end CircuitGraph
