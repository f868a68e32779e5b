/-
  Value types carried by wires and the kinds of operations.

  A wire carries a qubit, a classical bit or a control value.
  Qubits and bits are linear: an output pin that carries one
  feeds exactly one input pin.
-/

---- Wire Types ----

namespace CircuitGraph

/- What a wire carries. -/
inductive WireType where
  | qubit
  | bit
  | bool
  deriving DecidableEq, Repr, Inhabited

namespace WireType

def all : List WireType :=
  [qubit, bit, bool]

def name : WireType → String
  | qubit => "QUBIT"
  | bit => "BIT"
  | bool => "BOOL"

def ofName? (s : String) : Option WireType :=
  all.find? (fun t => t.name == s)

def copyable : WireType → Bool
  | bool => true
  | _ => false

end WireType

/- The types on both sides of an operation or of a graph. -/
structure Signature where
  inputs : List WireType
  outputs : List WireType
  deriving DecidableEq, Repr, Inhabited

---- Operation Kinds ----

/-
  Operation kinds: Pauli gates, the other one-qubit gates,
  rotations, two- and three-qubit gates, measurement and
  reset, the reading of a bit, and the structural kinds.
-/
inductive Kind where
  | x | y | z
  | h | s | t | sdg | tdg
  | rx | ry | rz
  | sx
  | cx | cz | cp | swap | ecr | rzz
  | ccx | ccz
  | measure | reset
  | readBit
  | input | output
  | region | conditional
  deriving DecidableEq, Repr, Inhabited

namespace Kind

def all : List Kind :=
  [x, y, z, h, s, t, sdg, tdg, rx, ry, rz, sx, cx, cz, cp, swap, ecr, rzz,
    ccx, ccz, measure, reset, readBit, input, output, region, conditional]

def name : Kind → String
  | x => "X" | y => "Y" | z => "Z"
  | h => "H" | s => "S" | t => "T" | sdg => "SDG" | tdg => "TDG"
  | rx => "RX" | ry => "RY" | rz => "RZ"
  | sx => "SX"
  | cx => "CX" | cz => "CZ" | cp => "CP" | swap => "SWAP" | ecr => "ECR" | rzz => "RZZ"
  | ccx => "CCX" | ccz => "CCZ"
  | measure => "MEASURE" | reset => "RESET"
  | readBit => "READ_BIT"
  | input => "INPUT" | output => "OUTPUT"
  | region => "REGION" | conditional => "CONDITIONAL"

def lowerName (k : Kind) : String :=
  k.name.map Char.toLower

def ofName? (w : String) : Option Kind :=
  all.find? (fun k => k.name == w)

def isContainer : Kind → Bool
  | region | conditional => true
  | _ => false

def isBoundary : Kind → Bool
  | input | output => true
  | _ => false

def isGate : Kind → Bool
  | readBit | input | output | region | conditional => false
  | _ => true

def isUnitary : Kind → Bool
  | measure | reset => false
  | k => k.isGate

def qubits : Kind → Nat
  | cx | cz | cp | swap | ecr | rzz => 2
  | ccx | ccz => 3
  | readBit | input | output | region | conditional => 0
  | _ => 1

def arity : Kind → Nat
  | rx | ry | rz | cp | rzz => 1
  | _ => 0

def signature? : Kind → Option Signature
  | input | output | region | conditional => none
  | measure => some ⟨[.qubit, .bit], [.qubit, .bit]⟩
  | readBit => some ⟨[.bit], [.bit, .bool]⟩
  | k => some ⟨List.replicate k.qubits .qubit, List.replicate k.qubits .qubit⟩

end Kind

end CircuitGraph
