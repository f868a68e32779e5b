import CircuitGraph.Circuit.Basic

/-
  Building circuits by calls.

  There is a call for each operation, and there are blocks of
  calls under the condition of a classical bit.
-/

---- Builders ----

namespace CircuitGraph

/- A circuit under construction, with the current condition. -/
structure Builder where
  circuit : Circuit
  condition : Option Index
  deriving Repr, Inhabited

namespace Builder

def start (qubits bits : Value) : Builder :=
  ⟨.empty qubits bits, none⟩

def indexOf : Value → Except Fault Index
  | .whole i => .ok (.number i.toNat)
  | .truth b => .ok (.line (.truth b))
  | .decimal x => .ok (.decimal x)
  | _ => .error .wrongType

/-
  A number from zero to below `count`, as a caller writes it.
  A number below zero is refused without a look at `count`.
-/
def indexBelow (count : Value) (v : Value) (fault : ArgumentFault) : Except Fault Index :=
  if !v.isNumeric then .error .wrongType
  else if v.less (.whole 0) || v.isUndefined then .error (.argument fault)
  else if !count.isNumeric then .error .wrongType
  else if !v.less count then .error (.argument fault)
  else indexOf v

def qubit (b : Builder) (q : Value) : Except Fault Index :=
  indexBelow b.circuit.qubits q (.qubitRange q b.circuit.qubits)

def classicalBit (b : Builder) (c : Value) : Except Fault Index :=
  indexBelow b.circuit.bits c (.bitRange c b.circuit.bits)

def add (b : Builder) (kind : Kind) (qubits : List Value) (params : List Value)
    (bit : Option Index) : Except Fault Builder := do
  let qs ← qubits.mapM b.qubit
  if Index.repeats qs then
    throw (.argument (.qubitsRepeated kind qubits))
  let ps ← Value.toParams params
  let op : Operation := ⟨kind, qs, ps, bit, b.condition⟩
  return { b with circuit := { b.circuit with ops := b.circuit.ops ++ [op] } }

def measure (b : Builder) (q c : Value) : Except Fault Builder := do
  let bit ← b.classicalBit (if c.isPresent then c else q)
  b.add .measure [q] [] (some bit)

end Builder

---- Calls ----

/-
  A call on a circuit under construction: an operation, a
  measurement, the demand for an inverse, a block under a
  condition, a call that cannot be made, or one that cannot
  even be understood.
-/
inductive Call where
  | add (kind : Kind) (qubits : List Value) (params : List Value)
  | measure (qubit bit : Value)
  | inverse
  | block (bit : Value) (calls : List Call)
  | refused (fault : Fault)
  | broken (fault : Fault)
  deriving Inhabited

namespace Builder

def checkInverse (b : Builder) : Except Fault Builder := do
  let _ ← b.circuit.inverse
  return b

mutual

def follow (b : Builder) : Call → Except Fault Builder
  | .add kind qubits params => b.add kind qubits params none
  | .measure q c => b.measure q c
  | .inverse => b.checkInverse
  | .block bit calls => do
    let c ← b.classicalBit bit
    let b' ← followAll { b with condition := some c } calls
    return { b' with condition := none }
  | .refused fault => .error fault
  | .broken fault => .error fault

def followAll (b : Builder) : List Call → Except Fault Builder
  | [] => .ok b
  | call :: calls => do
    let b' ← follow b call
    followAll b' calls

end

end Builder

def Circuit.build (qubits bits : Value) (calls : List Call) : Except Fault Circuit := do
  return (← (Builder.start qubits bits).followAll calls).circuit

---- Attempts ----

/- What became of a call: the number of operations after it, a fault, or the calls inside. -/
inductive Attempt where
  | done (count : Nat)
  | failed (fault : Fault)
  | block (attempts : List Attempt)
  deriving Inhabited

namespace Builder

def settle (b : Builder) : Except Fault Builder → Attempt × Builder
  | .ok b' => (.done b'.circuit.ops.length, b')
  | .error fault => (.failed fault, b)

mutual

def run (b : Builder) : Call → Except Fault (Attempt × Builder)
  | .add kind qubits params => .ok (b.settle (b.add kind qubits params none))
  | .measure q c => .ok (b.settle (b.measure q c))
  | .inverse => .ok (b.settle b.checkInverse)
  | .block bit calls =>
    match b.classicalBit bit with
    | .error (.argument fault) => .ok (.failed (.argument fault), b)
    | .error fault => .error fault
    | .ok c => do
      let (attempts, b') ← runAll { b with condition := some c } calls
      return (.block attempts, { b' with condition := none })
  | .refused fault => .ok (.failed fault, b)
  | .broken fault => .error fault

def runAll (b : Builder) : List Call → Except Fault (List Attempt × Builder)
  | [] => .ok ([], b)
  | call :: calls => do
    let (attempt, b') ← run b call
    let (attempts, b'') ← runAll b' calls
    return (attempt :: attempts, b'')

end

end Builder

end CircuitGraph
