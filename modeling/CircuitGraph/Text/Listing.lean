import CircuitGraph.Text.Surrogate

/-
  Texts of lists.
-/

namespace CircuitGraph

def bracketed (items : List String) : String :=
  "[" ++ String.intercalate ", " items ++ "]"

/- Items separated by commas, between parentheses; a single item keeps its comma. -/
def tupled : List String → String
  | [item] => "(" ++ item ++ ",)"
  | items => "(" ++ String.intercalate ", " items ++ ")"

def numbers (ns : List Nat) : String :=
  bracketed (ns.map Nat.repr)

def signed (i : Int) : String :=
  if i < 0 then "-" ++ Nat.repr i.natAbs else Nat.repr i.natAbs

def blanksFor (width : Nat) (s : String) : String :=
  String.ofList (List.replicate (width - (Surrogate.codes s).length) ' ')

def padLeft (width : Nat) (s : String) : String :=
  blanksFor width s ++ s

def padRight (width : Nat) (s : String) : String :=
  s ++ blanksFor width s

end CircuitGraph
