import CircuitGraph.Decimal.Layout
import CircuitGraph.Text.Quoted
import CircuitGraph.Text.Listing

/-
  Plain nested values, the carrier of circuit descriptions.

  Whole numbers, decimals and truth values are kept apart,
  because descriptions and messages tell them apart.
-/

---- Values ----

namespace CircuitGraph

/- A value of a description. -/
inductive Value where
  | null
  | truth (b : Bool)
  | whole (i : Int)
  | decimal (x : Float)
  | text (s : String)
  | list (items : List Value)
  | record (fields : List (String × Value))
  deriving Repr, Inhabited

namespace Value

def typeName : Value → String
  | null => "NoneType"
  | truth _ => "bool"
  | whole _ => "int"
  | decimal _ => "float"
  | text _ => "str"
  | list _ => "list"
  | record _ => "dict"

def field? (v : Value) (name : String) : Option Value :=
  match v with
  | record fields => (fields.find? (fun f => f.1 == name)).map Prod.snd
  | _ => none

/-
  The elements that a value holds when it is read as a
  sequence: a text holds its points and a record holds the
  names of its fields.  Scalars hold none.
-/
def elements? : Value → Option (List Value)
  | list items => some items
  | text s => some ((Surrogate.points s.toList).map (fun point => text (String.ofList point)))
  | record fields => some (fields.map (fun f => text f.1))
  | _ => none

def isPresent : Value → Bool
  | null => false
  | _ => true

def isScalar : Value → Bool
  | list _ | record _ => false
  | _ => true

def affirms : Value → Bool
  | null => false
  | truth b => b
  | whole i => i != 0
  | decimal x => !(x == 0.0)
  | text s => !s.isEmpty
  | list items => !items.isEmpty
  | record fields => !fields.isEmpty

def orElse (v w : Value) : Value :=
  if v.affirms then v else w

end Value

---- Whole Numbers ----

def Binary64.integer? (x : Float) : Option Int :=
  match Binary64.ofFloat x with
  | .finite negative m e =>
    let scale := Nat.pow 2 (-e).toNat
    let magnitude : Int := (m * Nat.pow 2 e.toNat / scale : Nat)
    if m * Nat.pow 2 e.toNat % scale = 0 then
      some (if negative then -magnitude else magnitude)
    else none
  | _ => none

namespace Value

/-
  The whole number that a value is equal to: a truth value
  counts as zero or one, and a decimal may be whole.
-/
def integer? : Value → Option Int
  | whole i => some i
  | truth b => some b.toNat
  | decimal x => Binary64.integer? x
  | _ => none

def natural? (v : Value) : Option Nat :=
  v.integer?.bind (fun i => if 0 ≤ i then some i.toNat else none)

def position? : Value → Option Int
  | whole i => some i
  | truth b => some b.toNat
  | _ => none

---- Texts of Values ----

def truthText (b : Bool) : String :=
  if b then "True" else "False"

mutual

def describe : Value → String
  | null => "None"
  | truth b => truthText b
  | whole i => signed i
  | decimal x => Layout.value.write x
  | text s => quoted s
  | list items => bracketed (describeAll items)
  | record fields => "\x7b" ++ String.intercalate ", " (describeFields fields) ++ "\x7d"

def describeAll : List Value → List String
  | [] => []
  | v :: vs => describe v :: describeAll vs

def describeFields : List (String × Value) → List String
  | [] => []
  | (name, v) :: fields => (quoted name ++ ": " ++ describe v) :: describeFields fields

end

def plain : Value → String
  | text s => s
  | v => v.describe

end Value

end CircuitGraph
