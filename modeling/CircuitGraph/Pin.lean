import CircuitGraph.Slot

/-
  Pins of operations and the wires between them.

  A pin is a place on the input or on the output side of a
  node.
-/

---- Positions from the End ----

namespace CircuitGraph

def placeIn? (length : Nat) (i : Int) : Option Nat :=
  if 0 ≤ i ∧ i < (length : Int) then some i.toNat
  else if i < 0 ∧ 0 ≤ i + (length : Int) then some (i + (length : Int)).toNat
  else none

---- Sides ----

/- The side of a node that a pin belongs to. -/
inductive Side where
  | input
  | output
  deriving DecidableEq, Repr, Inhabited

namespace Side

def label : Side → String
  | input => "in"
  | output => "out"

def capitals : Side → String
  | input => "IN"
  | output => "OUT"

end Side

---- Pins and Wires ----

/- A pin of a node; its side is clear from where the pin is used. -/
structure Pin where
  owner : Slot
  slot : Slot
  deriving DecidableEq, Repr, Inhabited

namespace Pin

def of (node index : Nat) : Pin :=
  ⟨.number node, .number index⟩

def node (p : Pin) : Nat :=
  p.owner.toNat

def index (p : Pin) : Nat :=
  p.slot.toNat

def place (p : Pin) : Nat × Nat :=
  (p.node, p.index)

def same (p q : Pin) : Bool :=
  p.place == q.place

def before (p q : Pin) : Bool :=
  p.node < q.node || (p.node == q.node && p.index ≤ q.index)

def text (side : Side) (p : Pin) : String :=
  p.owner.text ++ "." ++ side.label ++ "[" ++ p.slot.text ++ "]"

end Pin

/- A wire from an output pin to an input pin. -/
structure Wire where
  src : Pin
  dst : Pin
  deriving DecidableEq, Repr, Inhabited

namespace Wire

def same (v w : Wire) : Bool :=
  v.src.same w.src && v.dst.same w.dst

def before (v w : Wire) : Bool :=
  if v.src.same w.src then v.dst.before w.dst else v.src.before w.src

end Wire

---- Names of Pins ----

namespace Value

def within? (n : Nat) : Value → Option Bool
  | whole i => some (0 ≤ i && i < (n : Int))
  | truth b => some (b.toNat < n)
  | decimal x => some (0.0 ≤ x && x < n.toFloat)
  | _ => none

end Value

/- A pin as a caller names it. -/
structure PinName where
  side : Side
  node : Value
  position : Value
  deriving Repr, Inhabited

namespace PinName

def text (p : PinName) : String :=
  p.node.plain ++ "." ++ p.side.label ++ "[" ++ p.position.plain ++ "]"

def isScalar (p : PinName) : Bool :=
  p.node.isScalar && p.position.isScalar

def place? (p : PinName) : Option (Nat × Nat) :=
  match p.node.natural?, p.position.natural? with
  | some n, some i => some (n, i)
  | _, _ => none

def denotes (side : Side) (q : Pin) (p : PinName) : Bool :=
  p.side == side && p.place? == some q.place

end PinName

namespace Pin

def name (side : Side) (p : Pin) : PinName :=
  ⟨side, p.owner.toValue, p.slot.toValue⟩

end Pin

end CircuitGraph
