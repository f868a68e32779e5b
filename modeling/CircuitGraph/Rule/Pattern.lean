import CircuitGraph.Graph.Order

/-
  Patterns as lists of constraints.

  A pattern is searched for from a root, its first operation
  in topological order.
-/

---- Parameters ----

namespace CircuitGraph

def nearlyEqual (a b : Float) : Bool :=
  a == b || (!a.isInf && !b.isInf && decide ((a - b).abs ≤ 1e-9))

def paramsMatch : List Float → List Float → Bool
  | [], [] => true
  | a :: as, b :: bs => nearlyEqual a b && paramsMatch as bs
  | _, _ => false

---- Constraints ----

/-
  A condition on the operations bound to variables:
    * `root`: the first variable has this kind and these
      parameters,
    * `follow`: a wire at a pin of the variable leads to
      another pin of a new variable, which has this kind and
      these parameters,
    * `link`: a wire at a pin of the variable leads to a pin
      of another variable.
-/
inductive Constraint where
  | root (kind : Kind) (params : List Param)
  | follow (var : Nat) (side : Side) (index : Nat) (target : Slot) (kind : Kind)
      (params : List Param)
  | link (var : Nat) (side : Side) (index : Nat) (other : Nat) (target : Slot)
  deriving Repr, Inhabited

namespace Constraint

def same : Constraint → Constraint → Bool
  | root k ps, root k' ps' => k == k' && Param.allSame ps ps'
  | follow v s i t k ps, follow v' s' i' t' k' ps' =>
    v == v' && s == s' && i == i' && t.toNat == t'.toNat && k == k' && Param.allSame ps ps'
  | link v s i o t, link v' s' i' o' t' =>
    v == v' && s == s' && i == i' && o == o' && t.toNat == t'.toNat
  | _, _ => false

def rootKind? : Constraint → Option Kind
  | root kind _ => some kind
  | _ => none

end Constraint

---- Tracing a Pattern ----

/- A place of the operation bound to a variable. -/
structure Spot where
  var : Nat
  slot : Slot
  deriving DecidableEq, Repr, Inhabited

/- How far a pattern has been traced: the node of each variable, and the wires taken. -/
structure Tracing where
  nodes : List Nat
  seen : List Wire
  constraints : List Constraint
  deriving Repr, Inhabited

namespace Graph

variable {K : Type}

def startTracing (g : Graph K) (root : Nat) : Tracing :=
  ⟨[root], [], [.root ((g.kindOf? root).getD .input) (g.paramsOf root)]⟩

/- Takes the wire at a pin of a variable, unless it was taken or ends at the boundary. -/
def traceWire (g : Graph K) (var : Nat) (t : Tracing) (step : Side × Nat × Wire) : Tracing :=
  let (side, index, w) := step
  let far :=
    match side with
    | .input => w.src
    | .output => w.dst
  if t.seen.contains w || !isOpId far.node then t
  else
    match t.nodes.idxOf? far.node with
    | some other =>
      { t with
        seen := w :: t.seen
        constraints := t.constraints ++ [.link var side index other far.slot] }
    | none =>
      { nodes := t.nodes ++ [far.node]
        seen := w :: t.seen
        constraints := t.constraints ++ [.follow var side index far.slot
          ((g.kindOf? far.node).getD .input) (g.paramsOf far.node)] }

/- The wires at the pins of a node, with side and place: those that enter it come first. -/
def pinWires (g : Graph K) (n : Nat) : Except Fault (List (Side × Nat × Wire)) := do
  let sig := g.signatureOf n
  let entering ← (List.range sig.inputs.length).mapM (fun i =>
    match g.wireInto? n i with
    | some w => .ok (Side.input, i, w)
    | none => .error .absent)
  let leaving := (List.range sig.outputs.length).flatMap (fun i =>
    ((g.wiresFrom n i).mergeSort Wire.before).map (fun w => (Side.output, i, w)))
  return entering ++ leaving

def traceVariable (g : Graph K) (t : Tracing) (var : Nat) : Except Fault Tracing :=
  match t.nodes[var]? with
  | none => .ok t
  | some n => do
    let steps ← g.pinWires n
    return steps.foldl (g.traceWire var) t

def trace (g : Graph K) (root : Nat) : Except Fault Tracing :=
  (List.range g.ops.length).foldlM g.traceVariable (g.startTracing root)

end Graph

---- Patterns ----

/-
  A pattern ready to be searched for:
    * `nodes`: the operation of each variable,
    * `inputs`: the places that each input of the boundary
      feeds,
    * `outputs`: the place that feeds each output,
    * `outArity`: the number of output pins of each variable.
-/
structure Pattern where
  constraints : List Constraint
  nodes : List Nat
  inputs : List (List Spot)
  outputs : List Spot
  outArity : List Nat
  deriving Repr, Inhabited

namespace Pattern

variable {K : Type}

def size (p : Pattern) : Nat :=
  p.nodes.length

def spot (nodes : List Nat) (p : Pin) : Except Fault Spot :=
  match nodes.idxOf? p.node with
  | some var => .ok ⟨var, p.slot⟩
  | none => .error (.unknownKey (.whole p.node))

def outputSpot (g : Graph K) (nodes : List Nat) (j : Nat) : Except Fault Spot :=
  match g.source? outputId j with
  | some p => spot nodes p
  | none => .error .absent

def ofGraph (g : Graph K) : Except Fault Pattern := do
  match ← g.operationOrder with
  | [] => throw .outOfBounds
  | root :: _ =>
    let t ← g.trace root
    if t.nodes.length ≠ g.ops.length then
      throw (.disconnected (g.opIds.filter (fun n => !t.nodes.contains n)) root)
    let inputs ← (List.range g.inputs.length).mapM (fun i =>
      (g.targets inputId i).mapM (spot t.nodes))
    let outputs ← (List.range g.outputs.length).mapM (outputSpot g t.nodes)
    let outArity := t.nodes.map (fun n => (g.signatureOf n).outputs.length)
    return ⟨t.constraints, t.nodes, inputs, outputs, outArity⟩

end Pattern

end CircuitGraph
