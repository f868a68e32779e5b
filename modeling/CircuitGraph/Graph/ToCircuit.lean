import CircuitGraph.Circuit.Basic
import CircuitGraph.Graph.Order

/-
  Circuits of graphs.

  Operations are emitted in topological order on the lines
  that their wires carry.
-/

---- Lines ----

namespace CircuitGraph

/- What a wire carries along: a line, or the control value read from a line. -/
inductive Line where
  | plain (n : Nat)
  | control (n : Nat)
  deriving DecidableEq, Repr, Inhabited

namespace Line

def number : Line → Nat
  | plain n => n
  | control n => n

def index (l : Line) : Index :=
  .number l.number

end Line

/- The lines that output pins carry, the latest ones first. -/
abbrev LineMap : Type :=
  List ((Nat × Nat) × Line)

/-
  The emission of a nested graph: from the lines at its inputs
  and the condition around it to the operations emitted and
  the lines at its outputs.
-/
abbrev Emission : Type :=
  List Line → Option Index → Except Fault (List Operation × List Line)

namespace LineMap

def record (m : LineMap) (n : Nat) (lines : List Line) : LineMap :=
  lines.zipIdx.map (fun (l, i) => ((n, i), l)) ++ m

def find (m : LineMap) (place : Nat × Nat) : Except Fault Line :=
  match (m.find? (fun entry => entry.1 == place)) with
  | some entry => .ok entry.2
  | none => .error (.unknownKey .null)

end LineMap

---- Emission ----

namespace Graph

variable {K : Type}

def lineInto (g : Graph K) (m : LineMap) (n i : Nat) : Except Fault Line :=
  match g.source? n i with
  | none => .error .absent
  | some p => m.find p.place

def emitNode (qubits : Nat) (node : Node (Graph K)) (body : Option Emission)
    (condition : Option Index) (lines : List Line) : Except Fault (List Operation × List Line) :=
  match node.kind, lines, body with
  | .readBit, l :: _, _ => .ok ([], [l, .control l.number])
  | .region, lines, some emit => emit lines condition
  | .conditional, control :: rest, some emit =>
    match control, condition with
    | .control c, none => emit rest (some (.number (c - qubits)))
    | _, _ => .error (.argument .deepCondition)
  | .measure, q :: c :: _, _ =>
    .ok ([⟨.measure, [q.index], node.params, some (.number (c.number - qubits)), condition⟩], lines)
  | kind, lines, _ => .ok ([⟨kind, lines.map Line.index, node.params, none, condition⟩], lines)

def emitLevel (qubits : Nat) (g : Graph K) (bodies : List (Nat × Emission)) : Emission :=
  fun inputs condition => do
    let order ← g.operationOrder
    let start : LineMap × List Operation := (LineMap.record [] inputId inputs, [])
    let (m, ops) ← order.foldlM (fun (m, ops) n =>
      match g.op? n with
      | none => pure (m, ops)
      | some node => do
        let lines ← (List.range node.signature.inputs.length).mapM (g.lineInto m n)
        let (emitted, outs) ← emitNode qubits node (valueOf? bodies n) condition lines
        return (LineMap.record m n outs, ops ++ emitted)) start
    let outs ← (List.range g.outputs.length).mapM (g.lineInto m outputId)
    return (ops, outs)

/-
  The emission of a graph that is gone into from inside of
  itself.  Under a condition it comes to a second condition;
  without one it has no end.
-/
def emitAgain : Emission :=
  fun _ condition =>
    .error (if condition.isSome then .argument .deepCondition else .tooDeep)

def linearize (qubits : Nat) (g : Graph K) : Emission :=
  g.foldWith emitAgain (emitLevel qubits)

end Graph

---- Circuits ----

def exchange (a b : Nat) (ns : List Nat) : List Nat :=
  ns.map (fun n => if n = a then b else if n = b then a else n)

/-
  Swaps the qubit lines back, one place after the other.
  Gives the swaps and the lines that remain.
-/
def swapsBack : List Nat → List Nat → List Operation × List Nat
  | [], lines => ([], lines)
  | j :: js, lines =>
    match lines[j]? with
    | none => swapsBack js lines
    | some a =>
      if a = j then swapsBack js lines
      else
        let (ops, lines) := swapsBack js (exchange a j lines)
        (⟨.swap, [.number j, .number a], [], none, none⟩ :: ops, lines)

namespace Graph

variable {K : Type}

def circuitShaped (g : Graph K) : Bool :=
  let qubits := g.inputs.count .qubit
  g.inputs == g.outputs && !g.inputs.contains .bool
    && g.inputs.take qubits == List.replicate qubits .qubit

def toCircuit (g : Graph K) : Except Fault Circuit := do
  let qubits := g.inputs.count .qubit
  let bits := g.inputs.length - qubits
  if !g.circuitShaped then
    throw (.argument .notCircuitShaped)
  let lines := List.range (qubits + bits)
  let (ops, outs) ← g.linearize qubits (lines.map Line.plain) none
  let (swaps, rest) := swapsBack (List.range qubits) (outs.map Line.number)
  if rest ≠ lines then
    throw (.argument .bitsPermuted)
  return ⟨.whole qubits, .whole bits, ops ++ swaps⟩

end Graph

end CircuitGraph
