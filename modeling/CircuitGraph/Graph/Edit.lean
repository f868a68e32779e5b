import CircuitGraph.Graph.Basic
import CircuitGraph.Scalar

/-
  Edits of a graph.

  An edit gives a result or a fault, and a graph in either
  case: what was done before a fault stays done.
-/

---- Edits ----

namespace CircuitGraph

abbrev Edit (K : Type) (α : Type) : Type :=
  ExceptT Fault (StateM (Graph K)) α

namespace Edit

variable {K : Type} {α : Type}

def runOn (e : Edit K α) (g : Graph K) : Except Fault α × Graph K :=
  (ExceptT.run e).run g

def build (e : Edit K α) (g : Graph K) : Except Fault (Graph K) :=
  match e.runOn g with
  | (.ok _, g') => .ok g'
  | (.error fault, _) => .error fault

def ofExcept (r : Except Fault α) : Edit K α :=
  match r with
  | .ok a => pure a
  | .error fault => throw fault

def refuse (fault : ArgumentFault) : Edit K α :=
  throw (.argument fault)

end Edit

---- Nodes ----

namespace Graph

variable {K : Type}

def insertNode (g : Graph K) (node : Node (Graph K)) : Graph K :=
  { g with
    ops := g.ops ++ [node]
    version := g.version + 1
    unranked := if g.ranks.isSome then g.unranked ++ [node.id] else g.unranked }

def kindFault? (kind : Kind) (hasBody : Bool) : Option ArgumentFault :=
  if kind.isBoundary then some .boundaryAdded
  else if kind.isContainer && !hasBody then some (.bodyMissing kind)
  else if !kind.isContainer && hasBody then some (.bodyUnwanted kind)
  else none

/-
  Adds an operation with its parameters and, for a container,
  its body or the boundary of the graph around it that is its
  body.  A fault of the kind comes before one of the
  parameters.
-/
def addNodeWith (kind : Kind) (params : Except Fault (List Param)) (body : Option (Graph K))
    (enclosing : Option Signature) : Edit K Nat := do
  if let some fault := kindFault? kind (body.isSome || enclosing.isSome) then
    Edit.refuse fault
  let ps ← Edit.ofExcept params
  if ps.length ≠ kind.arity then
    Edit.refuse (.paramCount kind ps.length)
  let g ← get
  let node : Node (Graph K) := ⟨g.nextId, kind, ps, body, enclosing⟩
  set ({ g with nextId := g.nextId + 1 }.insertNode node)
  return g.nextId

def addNode (kind : Kind) (params : List Value) (body : Option (Graph K)) : Edit K Nat :=
  addNodeWith kind (Value.toParams params) body none

def addOp (kind : Kind) (params : List Param) (body : Option (Graph K)) : Edit K Nat :=
  addNodeWith kind (.ok params) body none

---- Wires ----

def named? (g : Graph K) (id : Value) : Option Nat :=
  id.natural?.filter g.hasNode

def nodeNamed (g : Graph K) (id : Value) : Except Fault Nat :=
  match g.named? id with
  | some n => .ok n
  | none => .error (if id.isScalar then .unknownKey id else .wrongType)

def pinTypes (g : Graph K) (n : Nat) : Side → List WireType
  | .input => (g.signatureOf n).inputs
  | .output => (g.signatureOf n).outputs

def typeAt (g : Graph K) (pin : PinName) : Except Fault WireType := do
  let n ← g.nodeNamed pin.node
  let types := g.pinTypes n pin.side
  match pin.position.position? with
  | none => throw .wrongType
  | some i =>
    match (placeIn? types.length i).bind (fun k => types[k]?) with
    | some t => return t
    | none => throw .outOfBounds

def checkPin (g : Graph K) (pin : PinName) (side : Side) : Except Fault Nat :=
  if pin.side ≠ side then .error (.argument (.wrongSide pin side))
  else if !pin.node.isScalar then .error .wrongType
  else
    match g.named? pin.node with
    | none => .error (.argument (.unknownNode pin.node))
    | some n =>
      match pin.position.within? (g.pinTypes n side).length with
      | some true => .ok n
      | some false =>
        .error (.argument (.pinRange pin n ((g.kindOf? n).getD .input) (Param.values (g.paramsOf n))))
      | none => .error .wrongType

def typedPin (g : Graph K) (n : Nat) (pin : PinName) : Except Fault (Pin × WireType) :=
  match pin.position.position? with
  | none => .error .wrongType
  | some i =>
    match (g.pinTypes n pin.side)[i.toNat]? with
    | some t => .ok (⟨.spelled n pin.node, .spelled i.toNat pin.position⟩, t)
    | none => .error .outOfBounds

def rankOf? (g : Graph K) (n : Nat) : Option K :=
  match g.ranks with
  | some ranks => valueOf? ranks n
  | none => none

def dropRanks (g : Graph K) : Graph K :=
  { g with ranks := none, unranked := [], rankedAs := [] }

def againstRanks [Scalar K] (g : Graph K) (src dst : Nat) : Bool :=
  match g.rankOf? src, g.rankOf? dst with
  | some a, some b => !(decide (a < b))
  | _, _ => false

def insertWire [Scalar K] (g : Graph K) (w : Wire) : Graph K :=
  let g' := { g with
    wires := g.wires ++ [w]
    index := g.index.enter w
    version := g.version + 1 }
  if g.againstRanks w.src.node w.dst.node then g'.dropRanks else g'

/-
  Puts a wire between two pins that exist and carry the given
  types, unless the types differ or a pin is taken.  Faults
  tell the pins by their names.
-/
def link [Scalar K] (src dst : PinName) (w : Wire) (carried expected : WireType) : Edit K Wire := do
  let g ← get
  if carried ≠ expected then
    throw (.structural (.typeMismatch src carried dst expected))
  if (g.wireInto? w.dst.node w.dst.index).isSome then
    throw (.structural (.inputTaken dst))
  if !carried.copyable && !(g.wiresFrom w.src.node w.src.index).isEmpty then
    throw (.structural (.outputTaken src))
  set (g.insertWire w)
  return w

def connect [Scalar K] (src dst : PinName) : Edit K Wire := do
  let g ← get
  let s ← Edit.ofExcept (g.checkPin src .output)
  let d ← Edit.ofExcept (g.checkPin dst .input)
  let (srcPin, carried) ← Edit.ofExcept (g.typedPin s src)
  let (dstPin, expected) ← Edit.ofExcept (g.typedPin d dst)
  link src dst ⟨srcPin, dstPin⟩ carried expected

def pinType (g : Graph K) (side : Side) (p : Pin) : Except Fault WireType :=
  if !g.hasNode p.node then .error (.argument (.unknownNode p.owner.toValue))
  else
    match (g.pinTypes p.node side)[p.index]? with
    | some t => .ok t
    | none =>
      .error (.argument (.pinRange (p.name side) p.node ((g.kindOf? p.node).getD .input)
        (Param.values (g.paramsOf p.node))))

def join [Scalar K] (src dst : Pin) : Edit K Unit := do
  let g ← get
  let carried ← Edit.ofExcept (g.pinType .output src)
  let expected ← Edit.ofExcept (g.pinType .input dst)
  let _ ← link (src.name .output) (dst.name .input) ⟨src, dst⟩ carried expected

def wireBetween? (g : Graph K) (src dst : PinName) : Option Wire :=
  g.wires.find? (fun w => src.denotes .output w.src && dst.denotes .input w.dst)

def eraseWire (g : Graph K) (w : Wire) : Graph K :=
  { g with
    wires := g.wires.erase w
    index := g.index.delete w
    version := g.version + 1 }

def disconnect (src dst : PinName) : Edit K Unit := do
  let g ← get
  if !dst.isScalar then
    throw .wrongType
  match g.wireBetween? src dst with
  | none => Edit.refuse (.wireAbsent src dst)
  | some w => set (g.eraseWire w)

def cut (w : Wire) : Edit K Unit := do
  let g ← get
  match g.wires.find? w.same with
  | none => Edit.refuse (.wireAbsent (w.src.name .output) (w.dst.name .input))
  | some v => set (g.eraseWire v)

---- Removal of Nodes ----

def eraseNode (g : Graph K) (n : Nat) : Graph K :=
  { g with
    ops := g.ops.filter (fun node => node.id != n)
    version := g.version + 1
    ranks := g.ranks.map (fun ranks => ranks.filter (fun entry => entry.1 != n))
    unranked := g.unranked.filter (fun m => m != n)
    rankedAs := g.rankedAs.filter (fun s => s.toNat != n) }

/-
  Removes an operation that is called `id` in faults.  Its
  wires go with it only if `cascade` is set; they are cut one
  by one before the node goes.
-/
def removeOp (n : Nat) (id : Value) (cascade : Bool) : Edit K (Node (Graph K)) := do
  let g ← get
  match g.op? n with
  | none => Edit.refuse .boundaryRemoved
  | some node =>
    let ws := g.incidentWires n
    if !ws.isEmpty && !cascade then
      throw (.structural (.hasWires id ws.length))
    ws.forM cut
    modify (fun g => g.eraseNode n)
    return node

def removeNode (id : Value) (cascade : Bool) : Edit K (Node (Graph K)) := do
  let g ← get
  if !id.isScalar then
    throw .wrongType
  match g.named? id with
  | none => Edit.refuse (.unknownNode id)
  | some n => removeOp n id cascade

end Graph

end CircuitGraph
