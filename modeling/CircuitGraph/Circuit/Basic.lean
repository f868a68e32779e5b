import CircuitGraph.Param
import CircuitGraph.Value.Access

/-
  Circuits as lists of operations on numbered qubits.

  Operations name their qubits and bits by numbers.  The first
  two may be written as truth values, and any may be written
  as a decimal; the spelling is kept.
-/

---- Indices ----

namespace CircuitGraph

/- The number of a qubit or of a bit with its spelling. -/
inductive Index where
  | line (slot : Slot)
  | decimal (x : Float)
  deriving Repr, Inhabited

namespace Index

def number (n : Nat) : Index :=
  line (.number n)

def toValue : Index → Value
  | line slot => slot.toValue
  | decimal x => .decimal x

def toNat? : Index → Option Nat
  | line slot => some slot.toNat
  | decimal _ => none

def same (i j : Index) : Bool :=
  i.toValue.agrees j.toValue

def repeats : List Index → Bool
  | [] => false
  | i :: is => is.any i.same || repeats is

end Index

---- Operations and Circuits ----

/-
  One operation on qubits: a measurement also names the bit
  that it writes, and a conditional operation the bit that
  must be set for it to run.
-/
structure Operation where
  kind : Kind
  qubits : List Index
  params : List Param
  bit : Option Index
  condition : Option Index
  deriving Repr, Inhabited

/- A circuit; its sizes are as they were asked for, and need not be sizes at all. -/
structure Circuit where
  qubits : Value
  bits : Value
  ops : List Operation
  deriving Repr, Inhabited

namespace Circuit

def empty (qubits bits : Value) : Circuit :=
  ⟨qubits, bits, []⟩

def text (c : Circuit) : String :=
  "Circuit(n_qubits=" ++ c.qubits.plain ++ ", n_bits=" ++ c.bits.plain ++ ", ops="
    ++ Nat.repr c.ops.length ++ ")"

end Circuit

---- Inverse ----

namespace Kind

def adjoint : Kind → Kind
  | s => sdg
  | sdg => s
  | t => tdg
  | tdg => t
  | k => k

def lacksInverse : Kind → Bool
  | measure | reset | sx => true
  | _ => false

end Kind

namespace Operation

def adjoint (op : Operation) : Operation :=
  let params := if op.kind.arity = 1 then op.params.map Param.neg else op.params
  ⟨op.kind.adjoint, op.qubits, params, none, none⟩

def inverseFault? (op : Operation) : Option Fault :=
  if op.kind.lacksInverse then some (.argument (.noInverse op.kind))
  else if op.condition.isSome then some (.argument .conditionalInverse)
  else none

end Operation

namespace Circuit

def inverse (c : Circuit) : Except Fault Circuit :=
  match c.ops.findSome? Operation.inverseFault? with
  | some fault => .error fault
  | none => .ok ⟨c.qubits, c.bits, c.ops.reverse.map Operation.adjoint⟩

end Circuit

end CircuitGraph
