import CircuitGraph.Value.Access
import CircuitGraph.Value.Number

/-
  Tolerances that values stand for.

  A tolerance is a number, alone or within nested lists of one
  entry each.
-/

---- Shapes ----

namespace CircuitGraph

/- The lengths of nested lists as far as they agree, and whether they agree in full. -/
structure Shape where
  sides : List Nat
  isEven : Bool
  deriving DecidableEq, Repr, Inhabited

def Shape.point : Shape :=
  ⟨[], true⟩

def commonStart : List Nat → List Nat → List Nat
  | m :: ms, n :: ns => if m = n then m :: commonStart ms ns else []
  | _, _ => []

def Shape.meet (s t : Shape) : Shape :=
  ⟨commonStart s.sides t.sides, s.isEven && t.isEven && s.sides == t.sides⟩

mutual

def Value.shape : Value → Shape
  | .list vs =>
    let inner := Value.innerShape vs
    ⟨vs.length :: inner.sides, inner.isEven⟩
  | _ => Shape.point

def Value.innerShape : List Value → Shape
  | [] => Shape.point
  | [v] => v.shape
  | v :: w :: vs => v.shape.meet (Value.innerShape (w :: vs))

end

mutual

def Value.leaves : Value → List Value
  | .list vs => Value.allLeaves vs
  | v => [v]

def Value.allLeaves : List Value → List Value
  | [] => []
  | v :: vs => v.leaves ++ Value.allLeaves vs

end

---- Tolerances ----

namespace Value

def isMachineNumber : Value → Bool
  | whole i => -(Nat.pow 2 63 : Nat) ≤ i && i < (Nat.pow 2 64 : Nat)
  | v => v.isNumeric

/-
  The error that a value allows.  Texts alone or beside machine
  numbers cannot be compared with one; anything else but
  numbers is of the wrong type.
-/
def tolerance (v : Value) : Except Fault Float := do
  let s := v.shape
  if !s.isEven then
    throw (.argument (.unevenShape s.sides))
  let leaves := v.leaves
  if leaves.any isText && leaves.all (fun x => x.isText || x.isMachineNumber) then
    throw .incomparable
  if !leaves.all isNumeric then
    throw .wrongType
  match leaves with
  | [] => throw (.argument .emptyTruth)
  | [x] => if x.isMachineNumber then x.number else throw .wrongType
  | _ => throw (.argument .severalTruths)

end Value

end CircuitGraph
