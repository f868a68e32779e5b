import CircuitGraph.Decimal.Binary64
import CircuitGraph.Text.Classes

/-
  Reading doubles from decimal texts.

  A numeral is a run of digits, an optional fraction and an
  optional exponent.
-/

---- Numerals ----

namespace CircuitGraph

/- The decimal number `digits * 10 ^ exponent`, with its sign. -/
structure Numeral where
  negative : Bool
  digits : Nat
  exponent : Int
  deriving DecidableEq, Repr, Inhabited

namespace Numeral

/-
  The double nearest to a numeral.  Beyond four hundred places
  in either direction the answer is an infinity or zero
  whatever the digits are, which keeps the powers small.
-/
def toFloat (n : Numeral) : Float :=
  let size : Int := (Nat.toDigits 10 n.digits).length
  if n.digits = 0 || size + n.exponent < -400 then Binary64.nearest n.negative 0 1
  else if 400 < size + n.exponent then Binary64.nearest n.negative (Nat.pow 10 400) 1
  else if 0 ≤ n.exponent then
    Binary64.nearest n.negative (n.digits * Nat.pow 10 n.exponent.toNat) 1
  else
    Binary64.nearest n.negative n.digits (Nat.pow 10 (-n.exponent).toNat)

def ofDigits (ds : List Nat) : Nat :=
  ds.foldl (fun n d => 10 * n + d) 0

def spanDigits : List Char → List Nat × List Char
  | [] => ([], [])
  | c :: cs =>
    if c.isDigit then
      let (ds, rest) := spanDigits cs
      ((c.toNat - '0'.toNat) :: ds, rest)
    else ([], c :: cs)

/-
  An exponent: a mark, an optional sign and at least one
  digit.  Without one of them nothing is taken.
-/
def scanExponent (cs : List Char) : Int × List Char :=
  match cs with
  | c :: rest =>
    if c = 'e' || c = 'E' then
      let (negative, digits) :=
        match rest with
        | '-' :: more => (true, more)
        | '+' :: more => (false, more)
        | more => (false, more)
      match spanDigits digits with
      | ([], _) => (0, cs)
      | (ds, more) => (if negative then -(ofDigits ds : Int) else ofDigits ds, more)
    else (0, cs)
  | [] => (0, [])

/-
  Digits with an optional fraction and exponent, without sign,
  and the rest of the text.  At least one digit is needed, on
  either side of the point.
-/
def scan (cs : List Char) : Option (Numeral × List Char) :=
  let (whole, rest) := spanDigits cs
  let (fraction, rest) :=
    match rest with
    | '.' :: more => spanDigits more
    | _ => ([], rest)
  if whole.isEmpty && fraction.isEmpty then none
  else
    let (e, rest) := scanExponent rest
    some (⟨false, ofDigits (whole ++ fraction), e - (fraction.length : Int)⟩, rest)

---- Parameters Given as Text ----

def plainDigit (c : Char) : Char :=
  match digitValue? c with
  | some d => Char.ofNat ('0'.toNat + d)
  | none => c

/-
  Drops underscores that stand between two digits.  Any other
  underscore makes the text unreadable.
-/
def dropUnderscores : Bool → List Char → Option (List Char)
  | _, [] => some []
  | afterDigit, '_' :: cs =>
    match cs with
    | c :: _ => if afterDigit && c.isDigit then dropUnderscores false cs else none
    | [] => none
  | _, c :: cs => (dropUnderscores c.isDigit cs).map (c :: ·)

def trimBlanks (cs : List Char) : List Char :=
  ((cs.dropWhile isBlank).reverse.dropWhile isBlank).reverse

def afterName? : List Char → List Char → Option (List Char)
  | [], cs => some cs
  | _ :: _, [] => none
  | d :: ds, c :: cs => if c.toLower = d then afterName? ds cs else none

def scanInfinity? (cs : List Char) : Option (List Char) :=
  (afterName? "inf".toList cs).map (fun rest => (afterName? "inity".toList rest).getD rest)

/- The value of a numeral without sign or of a special name, and the rest of the text. -/
def scanUnsigned? (negative : Bool) (cs : List Char) : Option (Float × List Char) :=
  match scan cs with
  | some (n, rest) => some ({ n with negative := negative }.toFloat, rest)
  | none =>
    match scanInfinity? cs with
    | some rest => some (if negative then -(1.0 / 0.0) else 1.0 / 0.0, rest)
    | none => (afterName? "nan".toList cs).map (fun rest => (0.0 / 0.0, rest))

def scanSigned? (cs : List Char) : Option (Float × List Char) :=
  match cs with
  | '-' :: rest => scanUnsigned? true rest
  | '+' :: rest => scanUnsigned? false rest
  | _ => scanUnsigned? false cs

end Numeral

def readFloat? (s : String) : Option Float :=
  let cs := Numeral.trimBlanks (s.toList.map Numeral.plainDigit)
  match (Numeral.dropUnderscores false cs).bind Numeral.scanSigned? with
  | some (x, []) => some x
  | _ => none

end CircuitGraph
