/-
  Double-precision numbers as exact dyadic numbers.

  A finite double is `m * 2 ^ e` with natural `m`.  The way
  back takes an exact quotient of natural numbers to the
  double nearest to it, an exact half going to the even one.
-/

---- Reading a Double ----

namespace CircuitGraph

/- What a double stands for: a signed dyadic number, an infinity or no number. -/
inductive Binary64 where
  | finite (negative : Bool) (m : Nat) (e : Int)
  | infinite (negative : Bool)
  | nan
  deriving DecidableEq, Repr, Inhabited

namespace Binary64

def leastExponent : Int :=
  -1074

/- Splits the sixty-four bits into sign, exponent and significand. -/
def ofBits (b : Nat) : Binary64 :=
  let negative := b / Nat.pow 2 63 % 2 == 1
  let biased : Nat := b / Nat.pow 2 52 % Nat.pow 2 11
  let fraction : Nat := b % Nat.pow 2 52
  if biased = 2047 then
    if fraction = 0 then .infinite negative else .nan
  else if biased = 0 then
    .finite negative fraction leastExponent
  else
    .finite negative (Nat.pow 2 52 + fraction) ((biased : Int) - 1075)

def ofFloat (x : Float) : Binary64 :=
  ofBits x.toBits.toNat

---- Rounding to a Double ----

def roundQuotient (num den : Nat) : Nat :=
  let q := num / den
  let r := num % den
  if 2 * r < den then q
  else if den < 2 * r then q + 1
  else if q % 2 = 0 then q
  else q + 1

def roundScaled (num den : Nat) (e : Int) : Nat :=
  if 0 ≤ e then roundQuotient num (den * Nat.pow 2 e.toNat)
  else roundQuotient (num * Nat.pow 2 (-e).toNat) den

def belowPower (num den : Nat) (k : Int) : Bool :=
  if 0 ≤ k then num < den * Nat.pow 2 k.toNat
  else num * Nat.pow 2 (-k).toNat < den

/-
  The bits of the double nearest to the quotient `num / den`
  of natural numbers.  The exponent is the one that leaves
  fifty-three binary digits, but never below the least one.
  A significand that rounds up to the next power of two
  carries into the exponent by itself.
-/
def nearestBits (num den : Nat) : Nat :=
  if num = 0 then 0
  else
    let k : Int := (num.log2 : Int) - (den.log2 : Int)
    let e := if belowPower num den k then k - 53 else k - 52
    let e := max e leastExponent
    let bits := (e - leastExponent).toNat * Nat.pow 2 52 + roundScaled num den e
    min bits (2047 * Nat.pow 2 52)

def nearest (negative : Bool) (num den : Nat) : Float :=
  let bits := nearestBits num den
  Float.ofBits (UInt64.ofNat (if negative then Nat.pow 2 63 + bits else bits))

/- The double nearest to a whole number, unless it is too large for any. -/
def ofInt? (i : Int) : Option Float :=
  let x := nearest (i < 0) i.natAbs 1
  if x.isFinite then some x else none

end Binary64

end CircuitGraph
