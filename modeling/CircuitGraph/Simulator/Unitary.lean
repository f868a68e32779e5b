import CircuitGraph.Graph.Order
import CircuitGraph.Simulator.Gate

/-
  Unitaries of graphs.

  A basis state of `n` qubits is a number below `2 ^ n`; the
  axis 0 is its most significant bit.
-/

---- Bits of Basis States ----

namespace CircuitGraph

def bitAt (n axis state : Nat) : Nat :=
  state / Nat.pow 2 (n - 1 - axis) % 2

def withBit (n axis bit state : Nat) : Nat :=
  let weight := Nat.pow 2 (n - 1 - axis)
  state - bitAt n axis state * weight + bit * weight

def readAxes (n : Nat) (axes : List Nat) (state : Nat) : Nat :=
  axes.foldl (fun x axis => 2 * x + bitAt n axis state) 0

def writeAxes (n : Nat) (axes : List Nat) (values state : Nat) : Nat :=
  axes.zipIdx.foldl (fun s (axis, k) => withBit n axis (bitAt axes.length k values) s) state

---- Gates on Axes ----

namespace Grid

variable {R : Type} [Zero R] [Add R] [Mul R]

@[specialize]
def combineRows (u : Grid R) (columns : Nat) (terms : List (R × Nat)) : Array R :=
  let rows := terms.map (fun (c, i) => (c, u[i]?.getD #[]))
  Array.ofFn (fun j : Fin columns =>
    rows.foldl (fun total (c, row) => total + c * row[j.val]?.getD 0) 0)

@[specialize]
def applyGate (n : Nat) (gate : Grid R) (axes : List Nat) (u : Grid R) : Grid R :=
  Array.ofFn (fun i : Fin (Nat.pow 2 n) =>
    u.combineRows (Nat.pow 2 n) ((List.range (Nat.pow 2 axes.length)).map (fun x =>
      (gate.entry (readAxes n axes i.val) x, writeAxes n axes x i.val))))

def gatherAxes (n : Nat) (axes : List Nat) (u : Grid R) : Grid R :=
  Array.ofFn (fun i : Fin (Nat.pow 2 n) =>
    u[axes.zipIdx.foldl (fun s (axis, j) => withBit n axis (bitAt n j i.val) s) 0]?.getD #[])

end Grid

---- Evolution along a Graph ----

/- The axes that output pins live on, the latest ones first. -/
abbrev AxisMap : Type :=
  List ((Nat × Nat) × Nat)

namespace AxisMap

def record (m : AxisMap) (n : Nat) (axes : List Nat) : AxisMap :=
  axes.zipIdx.map (fun (axis, i) => ((n, i), axis)) ++ m

def find (m : AxisMap) (p : Pin) : Except Fault Nat :=
  match List.find? (fun entry => entry.1 == p.place) m with
  | some entry => .ok entry.2
  | none => .error (.unknownKey (.whole p.node))

end AxisMap

/-
  What a graph does: from a matrix and the axes at its inputs
  to a matrix and the axes at its outputs.
-/
abbrev Evolution (R : Type) : Type :=
  Grid R → List Nat → Except Fault (Grid R × List Nat)

namespace Graph

variable {K R : Type}

def axisInto (g : Graph K) (m : AxisMap) (n i : Nat) : Except Fault Nat :=
  match g.source? n i with
  | some p => m.find p
  | none => .error .absent

variable [Amplitudes R]

@[specialize]
def evolveNode (qubits : Nat) (node : Node (Graph K)) (body : Option (Evolution R)) : Evolution R :=
  fun u axes =>
    match node.kind, body with
    | .region, some evolution => evolution u axes
    | kind, _ =>
      if kind.isUnitary then do
        let gate ← gateMatrix kind (Param.values node.params)
        return (Grid.applyGate qubits gate axes u, axes)
      else .error (.argument (.noUnitary kind))

@[specialize]
def evolveLevel (qubits : Nat) (g : Graph K) (bodies : List (Nat × Evolution R)) : Evolution R :=
  fun u inputs => do
    let order ← g.operationOrder
    let (m, u) ← order.foldlM (fun (m, u) n =>
      match g.op? n with
      | none => pure (m, u)
      | some node => do
        let axes ← (List.range node.signature.inputs.length).mapM (g.axisInto m n)
        let (u, outs) ← evolveNode qubits node (valueOf? bodies n) u axes
        return (AxisMap.record m n outs, u)) (AxisMap.record [] inputId inputs, u)
    let outs ← (List.range g.outputs.length).mapM (g.axisInto m outputId)
    return (u, outs)

@[specialize]
def evolve (qubits : Nat) (g : Graph K) : Evolution R :=
  g.foldWith (fun _ _ => .error .tooDeep) (evolveLevel qubits)

def maxQubits : Nat :=
  12

@[specialize]
def unitary (g : Graph K) : Except Fault (Grid R) := do
  let qubits := g.inputs.length
  if (g.inputs ++ g.outputs).any (fun t => t ≠ .qubit) || g.outputs.length ≠ qubits then
    throw (.argument .notQubits)
  if maxQubits < qubits then
    throw (.argument (.tooManyQubits qubits maxQubits))
  let dimension := Nat.pow 2 qubits
  let start : Grid R := .tabulate dimension dimension (fun i j => if i = j then 1 else 0)
  let (u, outs) ← g.evolve qubits start (List.range qubits)
  return Grid.gatherAxes qubits outs u

end Graph

end CircuitGraph
