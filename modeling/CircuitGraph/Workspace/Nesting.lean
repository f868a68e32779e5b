import CircuitGraph.Workspace.Basic

/-
  Graphs of a workspace inside each other.

  A graph that is put into a container moves there together
  with all its names, and it stands by itself again when the
  container is removed.
-/

---- Graphs inside Graphs ----

namespace CircuitGraph

namespace Place

def inside (p : Place) (n : Nat) : Place :=
  ⟨p.root, p.path ++ [n]⟩

def moveInto (root : Nat) (target : Place) (p : Place) : Place :=
  if p.root = root then ⟨target.root, target.path ++ p.path⟩ else p

def moveOut (source : Place) (root : Nat) (p : Place) : Place :=
  if p.root = source.root && source.path.isPrefixOf p.path then
    ⟨root, p.path.drop source.path.length⟩
  else p

end Place

namespace Workspace

variable {K : Type} {α : Type}

def cutLoop (w : Workspace K) (root : Nat) : Workspace K :=
  { w with loops := w.loops.filter (fun e => e.1 != root) }

def dropRoot (w : Workspace K) (root : Nat) : Workspace K :=
  { w with roots := w.roots.filter (fun e => e.1 != root) }

def addRoot (w : Workspace K) (g : Graph K) : Workspace K :=
  { w with roots := w.roots ++ [(w.nextRoot, g)], nextRoot := w.nextRoot + 1 }

def moveOut (source : Place) (body : Graph K) (w : Workspace K) : Workspace K :=
  (w.movePlaces (Place.moveOut source w.nextRoot)).addRoot body

/-
  Lets the body that was at a place stand by itself, when it
  holds the container of the root around it.  The root becomes
  a body like any other.
-/
def turnOut (source : Place) (body : Graph K) (loop : List Nat) (w : Workspace K) : Workspace K :=
  match w.graphAt? ⟨source.root, []⟩ with
  | none => w
  | some outer =>
    let inner := loop.drop source.path.length
    let moved := (w.movePlaces (Place.moveOut source w.nextRoot)).movePlaces
      (Place.moveInto source.root ⟨w.nextRoot, inner⟩)
    ((moved.addRoot (body.fillAt inner outer)).dropRoot source.root).cutLoop source.root

def release (host : Place) (node : Node (Graph K)) (w : Workspace K) : Workspace K :=
  let source := host.inside node.id
  match node.body, w.loop? host.root with
  | some body, some loop =>
    if source.path.isPrefixOf loop then w.turnOut source body loop else w.moveOut source body
  | some body, none => w.moveOut source body
  | none, some loop => if source.path = loop then w.cutLoop host.root else w
  | none, none => w

def editAt (p : Place) (e : Edit K α) : Action K α := do
  let (outcome, g) := e.runOn (← graphAt p)
  modify (fun w => w.setGraph p g)
  ofExcept outcome

def goneFrom (g g' : Graph K) : List (Node (Graph K)) :=
  g.ops.filter (fun node => (g'.op? node.id).isNone)

/-
  Edits the graph that a name holds.  The bodies of containers
  that the edit has taken out stand by themselves again.
-/
def edit (name : Value) (e : Edit K α) : Action K α := do
  let p ← place name
  let g ← graphAt p
  let (outcome, g') := e.runOn g
  modify (fun w => w.setGraph p g')
  (goneFrom g g').forM (fun node => do
    let host ← place name
    modify (release host node))
  ofExcept outcome

def isOwned (w : Workspace K) (p : Place) : Bool :=
  !p.path.isEmpty || (w.loop? p.root).isSome

def ownershipFault? (w : Workspace K) (host body : Place) : Option ArgumentFault :=
  if w.isOwned body then some .bodyOwned
  else if body = host then some .selfOwned
  else none

def addContainer (host : Place) (kind : Kind) (params : List Value) (body : Place) :
    Action K Nat := do
  let inner ← graphAt body
  if body.root = host.root then
    let n ← editAt host (Graph.addNodeWith kind (Value.toParams params) none (some inner.signature))
    modify (fun w => { w with loops := (host.root, host.path ++ [n]) :: w.loops })
    return n
  else
    let n ← editAt host (Graph.addNode kind params (some inner))
    modify (fun w => (w.movePlaces (Place.moveInto body.root (host.inside n))).dropRoot body.root)
    return n

def addNode (host : Place) (kind : Kind) (params : List Value) (body : Option Place) :
    Action K Nat := do
  if let some fault := Graph.kindFault? kind body.isSome then
    throw (.argument fault)
  match body with
  | none => editAt host (Graph.addNode kind params none)
  | some p =>
    if let some fault := (← get).ownershipFault? host p then
      throw (.argument fault)
    addContainer host kind params p

def removeNode (name : Value) (id : Value) (cascade : Bool) : Action K (Node (Graph K)) :=
  edit name (Graph.removeNode id cascade)

def bodyPlace? (host : Place) (node : Node (Graph K)) : Option Place :=
  match node.body, node.enclosing with
  | some _, _ => some (host.inside node.id)
  | none, some _ => some ⟨host.root, []⟩
  | none, none => none

def nameBody (name : Value) (id : Value) (newName : Value) : Action K (Option (Graph K)) := do
  let host ← place name
  let g ← graphAt host
  let n ← ofExcept (g.nodeNamed id)
  let body := (g.op? n).bind (bodyPlace? host)
  checkName newName
  modify (fun w => w.setName newName body)
  return body.bind (← get).seenAt?

end Workspace

end CircuitGraph
