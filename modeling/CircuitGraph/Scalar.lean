/-
  Numbers for ranks and costs.

  Ranks and costs are computed with the four operations and
  compared by order.
-/

namespace CircuitGraph

/- Numbers with the four operations, the natural numbers among them, and a decidable order. -/
class Scalar (K : Type) extends NatCast K, Add K, Sub K, Mul K, Div K, LT K where
  decLt : DecidableLT K

instance instDecidableLess {K : Type} [Scalar K] : DecidableLT K :=
  Scalar.decLt

instance instFloat : Scalar Float where
  natCast := Nat.toFloat
  decLt := fun a b => Float.decLt a b

namespace Scalar

variable {K : Type} [Scalar K]

def isOrdered (a : K) : Bool :=
  decide (((0 : Nat) : K) < a) || decide (a < ((1 : Nat) : K))

def greater (a b : K) : K :=
  if a < b then b else a

def smaller (a b : K) : K :=
  if b < a then b else a

def greatest? : List K → Option K
  | [] => none
  | x :: xs => some (xs.foldl greater x)

def least? : List K → Option K
  | [] => none
  | x :: xs => some (xs.foldl smaller x)

end Scalar

end CircuitGraph
