import CircuitGraph.Text.Printable
import CircuitGraph.Text.Surrogate

/-
  Quoted texts, as messages show them.

  A text stands between single quotes, or between double
  quotes when it holds a single quote and no double one.
-/

---- Escapes ----

namespace CircuitGraph

namespace Quoted

/- A number in base sixteen with exactly `width` digits, the last ones. -/
def hex (width n : Nat) : List Char :=
  let cs := Nat.toDigits 16 n
  List.replicate (width - cs.length) '0' ++ cs

def singleQuote : Char :=
  Char.ofNat 39

def doubleQuote : Char :=
  Char.ofNat 34

def backslash : Char :=
  Char.ofNat 92

def quoteOf (s : String) : Char :=
  if s.toList.contains singleQuote && !s.toList.contains doubleQuote then doubleQuote
  else singleQuote

def unitEscape (n : Nat) : List Char :=
  backslash :: 'u' :: hex 4 n

def longEscape (n : Nat) : List Char :=
  if n < 256 then backslash :: 'x' :: hex 2 n
  else if n < 65536 then unitEscape n
  else backslash :: 'U' :: hex 8 n

def escape (quote c : Char) : List Char :=
  if c = quote || c = backslash then [backslash, c]
  else if c.toNat = 10 then [backslash, 'n']
  else if c.toNat = 13 then [backslash, 'r']
  else if c.toNat = 9 then [backslash, 't']
  else if isPrintable c then [c]
  else longEscape ((Surrogate.half? c).getD c.toNat)

def escapePoint (quote : Char) : List Char → List Char
  | [c] => escape quote c
  | point => longEscape (Surrogate.code point)

end Quoted

def quoted (s : String) : String :=
  let quote := Quoted.quoteOf s
  let escaped := (Surrogate.points s.toList).flatMap (Quoted.escapePoint quote)
  String.ofList (quote :: escaped ++ [quote])

end CircuitGraph
