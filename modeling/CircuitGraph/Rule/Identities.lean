import CircuitGraph.Rule.Basic

/-
  The rules of the library.

  All rules are exact identities of gates.  Gates that cancel
  come first, then two gates that make one, then conjugations.
-/

---- Tables ----

namespace CircuitGraph

namespace Identities

def cancelPriority : Value :=
  .whole 2

def mergePriority : Value :=
  .whole 1

def conjugatePriority : Value :=
  .whole 0

def selfInverse : List Kind :=
  [.x, .y, .z, .h, .cx, .cz, .swap, .ccx, .ccz]

def symmetric : List Kind :=
  [.cz, .swap]

def inversePairs : List (Kind × Kind) :=
  [(.s, .sdg), (.sdg, .s), (.t, .tdg), (.tdg, .t)]

def squares : List (Kind × Kind) :=
  [(.s, .z), (.t, .s), (.sdg, .z), (.tdg, .sdg)]

def conjugates : List (Kind × Kind × Kind) :=
  [(.h, .x, .z), (.h, .z, .x)]

def conjugatePairs : List (Kind × Nat × Kind × List Nat) :=
  [(.cx, 1, .cz, [0, 1]), (.cz, 0, .cx, [1, 0]), (.cz, 1, .cx, [0, 1])]

---- Rules ----

def circuit (qubits : Nat) (gates : List (Kind × List Nat)) : Circuit :=
  ⟨.whole qubits, .whole 0, gates.map (fun gate => ⟨gate.1, gate.2.map Index.number, [], none, none⟩)⟩

variable {K : Type} [Scalar K]

def squareVanishes (kind : Kind) : Except Fault (Rule K) :=
  let qs := List.range kind.qubits
  Rule.ofCircuits (circuit kind.qubits [(kind, qs), (kind, qs)]) (circuit kind.qubits [])
    cancelPriority .null

def crossedVanish (kind : Kind) : Except Fault (Rule K) :=
  Rule.ofCircuits (circuit 2 [(kind, [0, 1]), (kind, [1, 0])]) (circuit 2 []) cancelPriority
    (.text (kind.lowerName ++ "," ++ kind.lowerName ++ "~->"))

def pairVanishes (pair : Kind × Kind) : Except Fault (Rule K) :=
  Rule.ofCircuits (circuit 1 [(pair.1, [0]), (pair.2, [0])]) (circuit 1 []) cancelPriority .null

def cancellations : Except Fault (List (Rule K)) := do
  let squares ← selfInverse.mapM squareVanishes
  let crossed ← symmetric.mapM crossedVanish
  let pairs ← inversePairs.mapM pairVanishes
  return squares ++ crossed ++ pairs

def merges : Except Fault (List (Rule K)) :=
  squares.mapM (fun (kind, square) =>
    Rule.ofCircuits (circuit 1 [(kind, [0]), (kind, [0])]) (circuit 1 [(square, [0])])
      mergePriority .null)

def conjugation (entry : Kind × Kind × Kind) : Except Fault (Rule K) :=
  let (outer, inner, result) := entry
  Rule.ofCircuits (circuit 1 [(outer, [0]), (inner, [0]), (outer, [0])])
    (circuit 1 [(result, [0])]) conjugatePriority .null

def pairConjugation (entry : Kind × Nat × Kind × List Nat) : Except Fault (Rule K) :=
  let (inner, q, result, qs) := entry
  Rule.ofCircuits (circuit 2 [(.h, [q]), (inner, [0, 1]), (.h, [q])])
    (circuit 2 [(result, qs)]) conjugatePriority .null

def conjugations : Except Fault (List (Rule K)) := do
  let single ← conjugates.mapM conjugation
  let double ← conjugatePairs.mapM pairConjugation
  return single ++ double

def swapElision : Except Fault (Rule K) := do
  let pattern ← Graph.ofCircuit (circuit 2 [(.swap, [0, 1])])
  let crossing : Edit K Unit := do
    Graph.join (.of inputId 0) (.of outputId 1)
    Graph.join (.of inputId 1) (.of outputId 0)
  let replacement ← crossing.build (.empty [.qubit, .qubit] [.qubit, .qubit])
  return ⟨pattern, replacement, cancelPriority, .text "swap->wires"⟩

def standard (elideSwaps : Bool) : Except Fault (List (Rule K)) := do
  let rules := (← cancellations) ++ (← merges) ++ (← conjugations)
  if elideSwaps then
    return rules ++ [← swapElision]
  else
    return rules

end Identities

end CircuitGraph
