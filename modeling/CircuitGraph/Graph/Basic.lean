import CircuitGraph.Param

/-
  Hierarchical graphs of operations.

  Every graph has an input node, with id 0, whose output pins
  are the inputs of the graph, and an output node, with id 1,
  whose input pins are its outputs.
-/

---- Wires by Their Ends ----

namespace CircuitGraph

def putAt {κ α : Type} [BEq κ] (k : κ) (a : α) (entries : List (κ × α)) : List (κ × α) :=
  if (entries.lookup k).isSome then
    entries.map (fun entry => if entry.1 == k then (k, a) else entry)
  else entries ++ [(k, a)]

def dropAt {κ α : Type} [BEq κ] (k : κ) (entries : List (κ × α)) : List (κ × α) :=
  entries.filter (fun entry => entry.1 != k)

/-
  The wires of a graph by the places at their ends.  There are
  two tables, which are written one after the other: the wire
  that enters a place, and the wires that leave a place.
-/
structure WireIndex where
  into : List ((Nat × Nat) × Wire)
  outOf : List ((Nat × Nat) × List Wire)

namespace WireIndex

def empty : WireIndex :=
  ⟨[], []⟩

def leaving (index : WireIndex) (place : Nat × Nat) : List Wire :=
  (index.outOf.lookup place).getD []

def enter (index : WireIndex) (w : Wire) : WireIndex where
  into := putAt w.dst.place w index.into
  outOf := putAt w.src.place (index.leaving w.src.place ++ [w]) index.outOf

/- The place that a wire has left alone has no entry any more. -/
def delete (index : WireIndex) (w : Wire) : WireIndex where
  into := dropAt w.dst.place index.into
  outOf :=
    match (index.leaving w.src.place).erase w with
    | [] => dropAt w.src.place index.outOf
    | ws => putAt w.src.place ws index.outOf

def ofWires (ws : List Wire) : WireIndex :=
  ws.foldl enter empty

/- The index of a copy is written anew, from the wires that leave the places. -/
def copy (index : WireIndex) : WireIndex :=
  ofWires (index.outOf.flatMap Prod.snd)

end WireIndex

---- Nodes and Graphs ----

/-
  An operation of a graph; `β` is the type of nested graphs.
  If the body of a container is a graph around it, then
  `enclosing` is the boundary of that graph.
-/
structure Node (β : Type) where
  id : Nat
  kind : Kind
  params : List Param
  body : Option β
  enclosing : Option Signature

/- A graph of operations between typed boundaries. -/
structure Graph (K : Type) where
  inputs : List WireType
  outputs : List WireType
  ops : List (Node (Graph K))
  wires : List Wire
  index : WireIndex
  nextId : Nat
  version : Nat
  ranks : Option (List (Nat × K))
  unranked : List Nat
  rankedAs : List Slot

def inputId : Nat :=
  0

def outputId : Nat :=
  1

def isOpId (n : Nat) : Bool :=
  outputId < n

---- Nodes of a Graph ----

namespace Graph

variable {K : Type}

def empty (inputs outputs : List WireType) : Graph K where
  inputs := inputs
  outputs := outputs
  ops := []
  wires := []
  index := .empty
  nextId := 2
  version := 2
  ranks := none
  unranked := []
  rankedAs := []

def signature (g : Graph K) : Signature :=
  ⟨g.inputs, g.outputs⟩

def op? (g : Graph K) (n : Nat) : Option (Node (Graph K)) :=
  g.ops.find? (fun node => node.id == n)

def hasNode (g : Graph K) (n : Nat) : Bool :=
  n ≤ outputId || (g.op? n).isSome

def opIds (g : Graph K) : List Nat :=
  sortIds (g.ops.map Node.id)

def nodeIds (g : Graph K) : List Nat :=
  inputId :: outputId :: g.opIds

end Graph

namespace Node

variable {K : Type}

def boundary? (node : Node (Graph K)) : Option Signature :=
  match node.body with
  | some body => some body.signature
  | none => node.enclosing

def hasBody (node : Node (Graph K)) : Bool :=
  node.boundary?.isSome

/- The pin types of an operation; a condition takes a control value in front. -/
def signature (node : Node (Graph K)) : Signature :=
  match node.kind, node.boundary? with
  | .region, some s => s
  | .conditional, some s => ⟨.bool :: s.inputs, s.outputs⟩
  | kind, _ => kind.signature?.getD ⟨[], []⟩

def text (node : Node (Graph K)) : String :=
  nodeText node.id node.kind (Param.values node.params)

end Node

namespace Graph

variable {K : Type}

def kindOf? (g : Graph K) (n : Nat) : Option Kind :=
  if n = inputId then some .input
  else if n = outputId then some .output
  else (g.op? n).map Node.kind

def paramsOf (g : Graph K) (n : Nat) : List Param :=
  ((g.op? n).map Node.params).getD []

def signatureOf? (g : Graph K) (n : Nat) : Option Signature :=
  if n = inputId then some ⟨[], g.inputs⟩
  else if n = outputId then some ⟨g.outputs, []⟩
  else (g.op? n).map Node.signature

def signatureOf (g : Graph K) (n : Nat) : Signature :=
  (g.signatureOf? n).getD ⟨[], []⟩

def text (g : Graph K) : String :=
  let names (ts : List WireType) := String.intercalate "," (ts.map WireType.name)
  "Graph((" ++ names g.inputs ++ ") -> (" ++ names g.outputs ++ "), "
    ++ Nat.repr g.ops.length ++ " ops)"

---- Wires of a Graph ----

def wireInto? (g : Graph K) (n i : Nat) : Option Wire :=
  g.wires.find? (fun w => w.dst.node == n && w.dst.index == i)

def wiresFrom (g : Graph K) (n i : Nat) : List Wire :=
  g.wires.filter (fun w => w.src.node == n && w.src.index == i)

def source? (g : Graph K) (n i : Nat) : Option Pin :=
  (g.wireInto? n i).map Wire.src

/- The input pins that the given place feeds, in ascending order. -/
def targets (g : Graph K) (n i : Nat) : List Pin :=
  ((g.wiresFrom n i).map Wire.dst).mergeSort Pin.before

/-
  The wires at a node: those that enter it, by place, and
  those that leave it, by place.  A wire from the node to
  itself is listed twice.
-/
def incidentWires (g : Graph K) (n : Nat) : List Wire :=
  let sig := g.signatureOf n
  (List.range sig.inputs.length).filterMap (g.wireInto? n)
    ++ (List.range sig.outputs.length).flatMap (g.wiresFrom n)

def sortedWires (g : Graph K) : List Wire :=
  g.wires.mergeSort Wire.before

def predecessors (g : Graph K) (n : Nat) : List Nat :=
  sortIds ((g.wires.filter (fun w => w.dst.node == n)).map (fun w => w.src.node))

def successors (g : Graph K) (n : Nat) : List Nat :=
  sortIds ((g.wires.filter (fun w => w.src.node == n)).map (fun w => w.dst.node))

/- The nodes one wire away in either direction, in ascending order. -/
def neighbours (g : Graph K) (n : Nat) : List Nat :=
  sortIds (g.predecessors n ++ g.successors n)

---- Recursion over Nested Graphs ----

variable {K : Type} {α : Type}

theorem sizeOf_body_lt {g : Graph K} {node : Node (Graph K)} {body : Graph K} (hNode : node ∈ g.ops)
    (hBody : node.body = some body) : sizeOf body < sizeOf g := by
  cases g with
  | mk inputs outputs ops wires index nextId version ranks unranked rankedAs =>
    cases node with
    | mk id kind params nested enclosing =>
      have hLt := List.sizeOf_lt_of_mem hNode
      subst hBody
      simp at hLt
      simp
      omega

/-
  Recursion from the innermost graphs outward: the value of a
  graph is computed from the graph and the values of the
  nested graphs, each with the id of its owner.
-/
def fold (step : Graph K → List (Nat × α) → α) (g : Graph K) : α :=
  step g (g.ops.attach.filterMap (fun ⟨node, _⟩ =>
    match _h : node.body with
    | some body => some (node.id, body.fold step)
    | none => none))
termination_by sizeOf g
decreasing_by exact sizeOf_body_lt (by assumption) _h

def bodies (g : Graph K) : List (Nat × Graph K) :=
  g.ops.filterMap (fun node => node.body.map (fun body => (node.id, body)))

theorem fold_eq (step : Graph K → List (Nat × α) → α) (g : Graph K) :
    g.fold step = step g (g.bodies.map (fun entry => (entry.1, entry.2.fold step))) := by
  rw [fold]
  congr 1
  rw [bodies, List.map_filterMap]
  conv => rhs; rw [← List.attach_map_subtype_val g.ops]
  rw [List.filterMap_map]
  congr 1
  funext ⟨node, hNode⟩
  dsimp only [Function.comp]
  split <;> simp_all

/- The containers of a level whose bodies are graphs around them. -/
def enclosed (g : Graph K) : List Nat :=
  (g.ops.filter (fun node => node.enclosing.isSome)).map Node.id

/-
  Recursion from the innermost graphs outward, where `endless`
  is the value of a graph that is gone into from inside of
  itself.
-/
def foldWith (endless : α) (step : Graph K → List (Nat × α) → α) (g : Graph K) : α :=
  g.fold (fun g bodies => step g (bodies ++ g.enclosed.map (fun n => (n, endless))))

/- Whether no graph contains itself: every body is inside its container. -/
def isFinite (g : Graph K) : Bool :=
  g.fold (fun g bodies => g.enclosed.isEmpty && bodies.all Prod.snd)

def valueOf? (values : List (Nat × α)) (n : Nat) : Option α :=
  (values.find? (fun entry => entry.1 == n)).map Prod.snd

end Graph

end CircuitGraph
