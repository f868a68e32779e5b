import CircuitGraph.Circuit.Basic
import CircuitGraph.Graph.Edit

/-
  Graphs of circuits.

  The lines of a circuit are its qubits followed by its bits.
  While the operations are added one by one, the front holds
  for each line the output pin that it has reached.
-/

---- Single Operations ----

namespace CircuitGraph

namespace Graph

variable {K : Type} [Scalar K]

/- Wires place `i` of an operation straight to both boundaries. -/
def joinThrough (n i : Nat) : Edit K Unit := do
  join (.of inputId i) (.of n i)
  join (.of n i) (.of outputId i)

def ofOperation (kind : Kind) (params : Except Fault (List Param)) : Except Fault (Graph K) := do
  match kind.signature? with
  | none => throw (.argument (.noSignature kind))
  | some sig =>
    let edit : Edit K Unit := do
      let n ← addNodeWith kind params none none
      (List.range sig.inputs.length).forM (joinThrough n)
    edit.build (.empty sig.inputs sig.outputs)

---- Circuits ----

def lineOf? (first : Int) (i : Index) : Option Int :=
  i.toNat?.map (fun n : Nat => first + (n : Int))

def frontPin (front : List Pin) (line : Option Int) : Except Fault (Nat × Pin) :=
  match line with
  | none => .error .wrongType
  | some line =>
    match placeIn? front.length line with
    | none => .error .outOfBounds
    | some i =>
      match front[i]? with
      | some p => .ok (i, p)
      | none => .error .outOfBounds

def advance (front : List Pin) (line : Option Int) (into onward : Pin) : Edit K (List Pin) := do
  let (i, p) ← Edit.ofExcept (frontPin front line)
  join p into
  return front.set i onward

/- Leads lines through a node; `offset` input pins are already taken. -/
def threadLines (n offset : Nat) : List (Option Int) → Nat → List Pin → Edit K (List Pin)
  | [], _, front => return front
  | line :: lines, i, front => do
    let front ← advance front line (.of n (i + offset)) (.of n i)
    threadLines n offset lines (i + 1) front

def linesOf (qubits : Int) (op : Operation) : Except Fault (List (Option Int)) :=
  let lines := op.qubits.map (lineOf? 0)
  if op.kind = .measure then
    match op.bit with
    | some c => .ok (lines ++ [lineOf? qubits c])
    | none => .error .wrongType
  else .ok lines

def addOperation (qubits : Int) (front : List Pin) (op : Operation) : Edit K (List Pin) := do
  let lines ← Edit.ofExcept (linesOf qubits op)
  match op.condition with
  | none =>
    let n ← addOp op.kind op.params none
    threadLines n 0 lines 0 front
  | some c =>
    let body ← Edit.ofExcept (ofOperation op.kind (.ok op.params))
    let read ← addOp .readBit [] none
    let front ← advance front (lineOf? qubits c) (.of read 0) (.of read 0)
    let n ← addOp .conditional [] (some body)
    join (.of read 1) (.of n 0)
    threadLines n 1 lines 0 front

def countLimit : Int :=
  9223372036854775808

def layoutLimit : Int :=
  1099511627776

def lineCount (size : Value) : Except Fault Int := do
  let n ← size.position
  if countLimit ≤ n || n < -countLimit then
    throw .overflow
  if layoutLimit ≤ n then
    throw .tooLarge
  return n

def lineTypes (qubits bits : Int) : List WireType :=
  List.replicate qubits.toNat .qubit ++ List.replicate bits.toNat .bit

def ofCircuit (c : Circuit) : Except Fault (Graph K) := do
  let qubits ← lineCount c.qubits
  let bits ← lineCount c.bits
  let types := lineTypes qubits bits
  let edit : Edit K Unit := do
    let start := (List.range types.length).map (Pin.of inputId)
    let front ← c.ops.foldlM (addOperation qubits) start
    front.zipIdx.forM (fun (p, i) => join p (.of outputId i))
  edit.build (.empty types types)

end Graph

end CircuitGraph
