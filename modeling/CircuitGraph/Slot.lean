import CircuitGraph.Value.Basic

/-
  Natural numbers with their spelling.

  Nodes and places are numbers, but callers may write them as
  decimals or, for the first two, as truth values.
-/

---- Spelled Numbers ----

namespace CircuitGraph

/-
  A natural number with its spelling.  Zero has a decimal with
  a minus sign besides the one without.
-/
inductive Slot where
  | number (n : Nat)
  | truth (b : Bool)
  | decimal (n : Nat)
  | minusZero
  deriving DecidableEq, Repr, Inhabited

namespace Slot

def toNat : Slot → Nat
  | number n => n
  | truth b => b.toNat
  | decimal n => n
  | minusZero => 0

def toValue : Slot → Value
  | number n => .whole n
  | truth b => .truth b
  | decimal n => .decimal n.toFloat
  | minusZero => .decimal (-0.0)

def text (s : Slot) : String :=
  s.toValue.plain

def spelled (n : Nat) : Value → Slot
  | .truth b => truth b
  | .decimal x =>
    match Binary64.ofFloat x with
    | .finite true _ _ => minusZero
    | _ => decimal n
  | _ => number n

def ofValue? (v : Value) : Option Slot :=
  v.natural?.map (fun n => spelled n v)

end Slot

---- Lists of Numbers ----

def insertId (n : Nat) : List Nat → List Nat
  | [] => [n]
  | m :: ms =>
    if n < m then n :: m :: ms
    else if n = m then m :: ms
    else m :: insertId n ms

def idsBefore : List Nat → List Nat → Bool
  | [], _ => true
  | _ :: _, [] => false
  | m :: ms, n :: ns => m < n || (m == n && idsBefore ms ns)

def sortIds (ns : List Nat) : List Nat :=
  ns.foldr insertId []

---- Lists of Slots ----

namespace Slot

def covers (slots : List Slot) (n : Nat) : Bool :=
  slots.any (fun s => s.toNat == n)

def among (slots : List Slot) (n : Nat) : Slot :=
  (slots.find? (fun s => s.toNat == n)).getD (.number n)

def firsts (seen : List Nat) : List Slot → List Slot
  | [] => []
  | s :: rest =>
    if seen.contains s.toNat then firsts seen rest
    else s :: firsts (s.toNat :: seen) rest

end Slot

/- One slot for each number of a list, spelled as where it comes first, in ascending order. -/
def sortSlots (slots : List Slot) : List Slot :=
  (sortIds (slots.map Slot.toNat)).map (Slot.among slots)

end CircuitGraph
