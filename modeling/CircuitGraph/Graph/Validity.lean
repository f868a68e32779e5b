import CircuitGraph.Graph.Order

/-
  Well-formed graphs.

  In a well-formed graph every input pin has a wire of its
  type, every linear output pin has exactly one wire, nested
  graphs are well-formed and there is no cycle.
-/

namespace CircuitGraph

namespace Graph

variable {K : Type}

def carriedType? (g : Graph K) (p : Pin) : Option WireType :=
  (g.signatureOf p.node).outputs[p.index]?

def checkInput (g : Graph K) (n i : Nat) (t : WireType) : Except Fault Unit :=
  match g.wireInto? n i with
  | none => .error (.structural (.noSource n i))
  | some w =>
    match g.carriedType? w.src with
    | some carried =>
      if carried = t then .ok () else .error (.structural (.joinMismatch w carried t))
    | none => .error .outOfBounds

def checkOutput (g : Graph K) (n i : Nat) (t : WireType) : Except Fault Unit :=
  let count := (g.wiresFrom n i).length
  if t.copyable || count = 1 then .ok ()
  else .error (.structural (.wrongFanout n i count))

def checkNode (g : Graph K) (n : Nat) : Except Fault Unit := do
  let sig := g.signatureOf n
  sig.inputs.zipIdx.forM (fun (t, i) => g.checkInput n i t)
  sig.outputs.zipIdx.forM (fun (t, i) => g.checkOutput n i t)

def validateLevel (g : Graph K) (bodies : List (Nat × Except Fault Unit)) : Except Fault Unit := do
  g.checkNode inputId
  g.checkNode outputId
  g.ops.forM (fun node => do
    g.checkNode node.id
    (valueOf? bodies node.id).getD (.ok ()))
  let _ ← g.topologicalOrder

def validate (g : Graph K) : Except Fault Unit :=
  g.foldWith (.error .tooDeep) validateLevel

def isWellFormed (g : Graph K) : Except Fault Bool :=
  match g.validate with
  | .ok _ => .ok true
  | .error .tooDeep => .error .tooDeep
  | .error _ => .ok false

end Graph

end CircuitGraph
