/-
  Halves of surrogate pairs.

  A character beyond the first plane may be escaped as two
  code units, a high half and a low half.
-/

---- Halves ----

namespace CircuitGraph

namespace Surrogate

def isHigh (unit : Nat) : Bool :=
  55296 ≤ unit && unit < 56320

def isLow (unit : Nat) : Bool :=
  56320 ≤ unit && unit < 57344

def joined (high low : Nat) : Nat :=
  65536 + (high - 55296) * 1024 + (low - 56320)

def highHalf (code : Nat) : Nat :=
  55296 + (code - 65536) / 1024

def lowHalf (code : Nat) : Nat :=
  56320 + (code - 65536) % 1024

---- Stand-Ins ----

def plane : Nat :=
  851968

def standIn (unit : Nat) : Char :=
  Char.ofNat (plane + unit)

def half? (c : Char) : Option Nat :=
  let unit := c.toNat - plane
  if isHigh unit || isLow unit then some unit else none

def mark : Char :=
  Char.ofNat (plane + 57344)

def kept (code : Nat) : List Char :=
  let c := Char.ofNat code
  if c = mark || (half? c).isSome then [mark, c] else [c]

def ofScalars (s : String) : String :=
  String.ofList (s.toList.flatMap (fun c => kept c.toNat))

---- Points ----

def points : List Char → List (List Char)
  | [] => []
  | [c] => [[c]]
  | c :: d :: rest => if c = mark then [c, d] :: points rest else [c] :: points (d :: rest)

def code : List Char → Nat
  | [] => 0
  | [c] => (half? c).getD c.toNat
  | _ :: d :: _ => d.toNat

def codes (s : String) : List Nat :=
  (points s.toList).map code

end Surrogate

end CircuitGraph
