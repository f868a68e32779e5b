import CircuitGraph.Decimal.Shortest

/-
  Written forms of doubles.

  Three forms are in use.  Values are written with the fewest
  digits that read back.
-/

---- Common Pieces ----

namespace CircuitGraph

namespace Decimal

def signText (negative : Bool) : String :=
  if negative then "-" else ""

def padded (width n : Nat) : String :=
  let cs := Nat.toDigits 10 n
  String.ofList (List.replicate (width - cs.length) '0' ++ cs)

def exponentText (e : Int) : String :=
  "e" ++ (if e < 0 then "-" else "+") ++ padded 2 e.natAbs

/- A decimal without an exponent, with a point only before a fraction. -/
def positional (d : Digits) : String :=
  let cs := d.chars
  if 0 ≤ d.exponent then
    String.ofList (cs ++ List.replicate d.exponent.toNat '0')
  else
    let places := (-d.exponent).toNat
    if places < cs.length then
      String.ofList (cs.take (cs.length - places) ++ '.' :: cs.drop (cs.length - places))
    else
      String.ofList ('0' :: '.' :: List.replicate (places - cs.length) '0' ++ cs)

def scientific (d : Digits) : String :=
  match d.chars with
  | [] => ""
  | [c] => String.ofList [c] ++ exponentText d.magnitude
  | c :: rest => String.ofList (c :: '.' :: rest) ++ exponentText d.magnitude

end Decimal

---- Shortest Form ----

/-
  The decisions of a form with shortest digits: from which to
  below which exponent of the first digit numbers are written
  without an exponent, and the texts of the special values.
-/
structure Layout where
  least : Int
  limit : Int
  infinity : String
  nan : String
  deriving Repr, Inhabited

namespace Layout

def value : Layout :=
  ⟨-4, 16, "inf", "nan"⟩

def json : Layout :=
  ⟨-4, 16, "Infinity", "NaN"⟩

def withPoint (d : Digits) : String :=
  if 0 ≤ d.exponent then Decimal.positional d ++ ".0" else Decimal.positional d

def write (l : Layout) (x : Float) : String :=
  match Binary64.ofFloat x with
  | .nan => l.nan
  | .infinite negative => Decimal.signText negative ++ l.infinity
  | .finite negative m e =>
    if m = 0 then Decimal.signText negative ++ "0.0"
    else
      let d := Digits.shortest m e
      let body :=
        if l.least ≤ d.magnitude ∧ d.magnitude < l.limit then withPoint d
        else Decimal.scientific d
      Decimal.signText negative ++ body

end Layout

---- Fixed Precision ----

namespace Decimal

/-
  A double with at most `count` significant digits and without
  trailing zeros.  An exponent is written when the first digit
  stands at or beyond `count` places, or below the fourth
  place behind the point.
-/
def general (count : Nat) (x : Float) : String :=
  match Binary64.ofFloat x with
  | .nan => "nan"
  | .infinite negative => signText negative ++ "inf"
  | .finite negative m e =>
    if m = 0 then signText negative ++ "0"
    else
      let d := (Digits.roundTo count m e).strip
      let body :=
        if -4 ≤ d.magnitude ∧ d.magnitude < (count : Int) then positional d
        else scientific d
      signText negative ++ body

def unitsOf (places m : Nat) (e : Int) : Nat :=
  let (num, den) := Digits.gridRatio m e (-(places : Int))
  Binary64.roundQuotient num den

def fixedUnits (places units : Nat) : String :=
  if places = 0 then padded 1 units
  else padded 1 (units / Nat.pow 10 places) ++ "."
    ++ padded places (units % Nat.pow 10 places)

/- A double with exactly `places` digits behind the point. -/
def fixed (places : Nat) (x : Float) : String :=
  match Binary64.ofFloat x with
  | .nan => "nan"
  | .infinite negative => signText negative ++ "inf"
  | .finite negative m e => signText negative ++ fixedUnits places (unitsOf places m e)

/- The same, a number that rounds to zero being written without sign. -/
def fixedUnsignedZero (places : Nat) (x : Float) : String :=
  match Binary64.ofFloat x with
  | .finite _ m e =>
    if unitsOf places m e = 0 then fixedUnits places 0 else fixed places x
  | _ => fixed places x

end Decimal

end CircuitGraph
