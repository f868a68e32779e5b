import CircuitGraph.Decimal.Reading
import CircuitGraph.Fault

/-
  Numbers that values stand for.

  A parameter may be given as a number of either sort, as a
  truth value or as a text that denotes a number.
-/

namespace CircuitGraph

namespace Value

def toFloat : Value → Except Fault Float
  | decimal x => .ok x
  | truth b => .ok (if b then 1.0 else 0.0)
  | whole i =>
    match Binary64.ofInt? i with
    | some x => .ok x
    | none => .error .overflow
  | text s =>
    match readFloat? s with
    | some x => .ok x
    | none => .error (.argument (.notNumeric s))
  | _ => .error .wrongType

def number (v : Value) : Except Fault Float :=
  match v with
  | text _ => .error .wrongType
  | v => v.toFloat

/- The doubles that several values stand for; the first fault wins. -/
def toFloats (vs : List Value) : Except Fault (List Float) :=
  vs.mapM toFloat

end Value

end CircuitGraph
