/-
  Blanks and decimal digits of all scripts.

  A number may be surrounded by blanks and written with the
  decimal digits of any script.
-/

---- Blanks ----

namespace CircuitGraph

/-
  Whether the character is a blank of some script.  The four
  separator controls below the space are not blanks.
-/
def isBlank (c : Char) : Bool :=
  let n := c.toNat
  (9 ≤ n && n ≤ 13) || n == 32 || n == 133 || n == 160 || n == 5760
    || (8192 ≤ n && n ≤ 8202) || n == 8232 || n == 8233 || n == 8239 || n == 8287 || n == 12288

---- Decimal Digits ----

def scriptZeros : List Nat :=
  [
    48, 1632, 1776, 1984, 2406, 2534, 2662, 2790, 2918, 3046, 3174, 3302, 3430, 3558, 3664,
    3792, 3872, 4160, 4240, 6112, 6160, 6470, 6608, 6784, 6800, 6992, 7088, 7232, 7248, 42528,
    43216, 43264, 43472, 43504, 43600, 44016, 65296, 66720, 68912, 69734, 69872, 69942, 70096,
    70384, 70736, 70864, 71248, 71360, 71472, 71904, 72016, 72784, 73040, 73120, 92768, 92864,
    93008, 120782, 120792, 120802, 120812, 120822, 123200, 123632, 125264, 130032
  ]

def digitValue? (c : Char) : Option Nat :=
  let n := c.toNat
  (scriptZeros.find? (fun z => z ≤ n && n < z + 10)).map (fun z => n - z)

end CircuitGraph
