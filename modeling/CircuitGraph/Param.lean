import CircuitGraph.Value.Number

/-
  Parameters of operations.

  A parameter is a double.  If it is undefined, it differs
  from all others, unless it was given as a number: the
  undefined number is one and the same wherever it is given.
-/

namespace CircuitGraph

/- A parameter of an operation, and whether it was given as it is, neither read nor computed. -/
structure Param where
  value : Float
  isGiven : Bool
  deriving Repr, Inhabited

namespace Param

def values (ps : List Param) : List Float :=
  ps.map Param.value

def same (p q : Param) : Bool :=
  p.value == q.value || (p.isGiven && q.isGiven && p.value.isNaN && q.value.isNaN)

def allSame : List Param → List Param → Bool
  | [], [] => true
  | p :: ps, q :: qs => p.same q && allSame ps qs
  | _, _ => false

def neg (p : Param) : Param :=
  ⟨-p.value, false⟩

end Param

namespace Value

def toParam : Value → Except Fault Param
  | decimal x => .ok ⟨x, true⟩
  | v => do return ⟨← v.toFloat, false⟩

def toParams (vs : List Value) : Except Fault (List Param) :=
  vs.mapM toParam

end Value

end CircuitGraph
