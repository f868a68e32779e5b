import CircuitGraph.Fault

/-
  Numbers among values, and their order.

  Whole numbers, decimals and truth values are compared as
  numbers and exactly.
-/

---- Order of Numbers ----

namespace CircuitGraph

namespace Value

def isNumeric : Value → Bool
  | whole _ | decimal _ | truth _ => true
  | _ => false

def quotient? : Value → Option (Int × Nat)
  | whole i => some (i, 1)
  | truth b => some (b.toNat, 1)
  | decimal x =>
    match Binary64.ofFloat x with
    | .finite negative m e =>
      let n : Int := (m * Nat.pow 2 e.toNat : Nat)
      some (if negative then -n else n, Nat.pow 2 (-e).toNat)
    | _ => none
  | _ => none

def beyond (v : Value) : Float :=
  match v with
  | decimal x => if x.isFinite then 0.0 else x
  | _ => 0.0

def less (v w : Value) : Bool :=
  match v.quotient?, w.quotient? with
  | some (n, d), some (m, e) => decide (n * (e : Int) < m * (d : Int))
  | _, _ => decide (v.beyond < w.beyond)

def isUndefined : Value → Bool
  | decimal x => x.isNaN
  | _ => false

---- Order of Texts and Numbers ----

def precedes (v w : Value) : Bool :=
  match v, w with
  | text s, text t => decide (Surrogate.codes s < Surrogate.codes t)
  | _, _ => v.isNumeric && w.isNumeric && v.less w

def isComparable (v w : Value) : Bool :=
  match v, w with
  | text _, text _ => true
  | _, _ => v.isNumeric && w.isNumeric

def agrees (v w : Value) : Bool :=
  v.isComparable w && !v.isUndefined && !w.isUndefined && !v.precedes w && !w.precedes v

def isSameKey (v w : Value) : Bool :=
  match v, w with
  | null, null => true
  | _, _ => v.agrees w || (v.isUndefined && w.isUndefined)

---- Bounds ----

def isBelow (v : Value) (bound : Nat) : Except Fault Bool :=
  if v.isNumeric then .ok (v.less (.whole bound)) else .error .wrongType

def isAbove (v : Value) (bound : Nat) : Except Fault Bool :=
  if v.isNumeric then .ok ((whole bound).less v) else .error .wrongType

def isAtMost (v : Value) (bound : Nat) : Except Fault Bool := do
  return !(← v.isAbove bound) && !v.isUndefined

/-
  The least natural number that is not below a number.  There
  is none for infinity, and none is sought for the undefined.
-/
def reach (v : Value) : Except Fault (Option Nat) :=
  if !v.isNumeric then .error .wrongType
  else
    match v.quotient? with
    | some (n, d) => .ok (some ((n.toNat + (d - 1)) / d))
    | none => .ok (if v.less (whole 0) then some 0 else none)

end Value

end CircuitGraph
