import CircuitGraph.Decimal.Binary64

/-
  The fewest decimal digits that read back as a given double.

  A positive decimal is `digits * 10 ^ exponent`.  The reals
  that round to the double `m * 2 ^ e` form an interval, ends
  included when `m` is even.
-/

---- Decimals ----

namespace CircuitGraph

/- The decimal number `digits * 10 ^ exponent`. -/
structure Digits where
  digits : Nat
  exponent : Int
  deriving DecidableEq, Repr, Inhabited

namespace Digits

def chars (d : Digits) : List Char :=
  Nat.toDigits 10 d.digits

def magnitude (d : Digits) : Int :=
  d.exponent + (d.chars.length : Int) - 1

def stripLoop : Nat → Nat → Int → Digits
  | 0, n, e => ⟨n, e⟩
  | fuel + 1, n, e =>
    if n ≠ 0 ∧ n % 10 = 0 then stripLoop fuel (n / 10) (e + 1) else ⟨n, e⟩

def strip (d : Digits) : Digits :=
  stripLoop d.chars.length d.digits d.exponent

---- Dyadic Numbers on a Decimal Grid ----

def gridRatio (m : Nat) (e p : Int) : Nat × Nat :=
  let num := m * Nat.pow 2 e.toNat * Nat.pow 10 (-p).toNat
  let den := Nat.pow 2 (-e).toNat * Nat.pow 10 p.toNat
  (num, den)

/-
  The least `k` with `m * 2 ^ e < 10 ^ k`, found from an
  estimate that is at most two too small.
-/
def ceilingPower (m : Nat) (e : Int) : Int :=
  let bits : Int := (m.log2 : Int) + e
  let guess : Int := Int.fdiv (bits * 30103) 100000
  let below (k : Int) : Bool :=
    let (num, den) := gridRatio m e k
    num < den
  if below (guess - 1) then guess - 1
  else if below guess then guess
  else if below (guess + 1) then guess + 1
  else guess + 2

/- The dyadic number rounded to `count` significant digits, a half to even. -/
def roundTo (count m : Nat) (e : Int) : Digits :=
  let p := ceilingPower m e - (count : Int)
  let (num, den) := gridRatio m e p
  ⟨Binary64.roundQuotient num den, p⟩

/-
  The neighbour of `m * 2 ^ e` on the grid `10 ^ p` that
  rounds back to it, the nearer one if both do.  The values
  `4 m - 2` (or `4 m - 1` just above a power of two) and
  `4 m + 2` bound the interval in quarters of a unit.
-/
def neighbour? (m : Nat) (e p : Int) : Option Digits :=
  let (num, den) := gridRatio m e p
  let low := num / den
  let narrow := m = Nat.pow 2 52 ∧ Binary64.leastExponent < e
  let (unit, _) := gridRatio 1 e p
  let lower := 4 * num - (if narrow then unit else 2 * unit)
  let upper := 4 * num + 2 * unit
  let inside (d : Nat) : Bool :=
    let v := 4 * d * den
    if m % 2 = 0 then lower ≤ v && v ≤ upper else lower < v && v < upper
  let lowIn := low ≠ 0 && inside low
  let highIn := inside (low + 1)
  let r := num % den
  if lowIn && highIn then
    if 2 * r < den then some ⟨low, p⟩
    else if den < 2 * r then some ⟨low + 1, p⟩
    else if low % 2 = 0 then some ⟨low, p⟩
    else some ⟨low + 1, p⟩
  else if lowIn then some ⟨low, p⟩
  else if highIn then some ⟨low + 1, p⟩
  else none

/- The shortest decimal that reads back as the positive double `m * 2 ^ e`. -/
def shortest (m : Nat) (e : Int) : Digits :=
  let top := ceilingPower m e
  let found := (List.range 17).findSome? fun i : Nat => neighbour? m e (top - (i + 1 : Nat))
  (found.getD (roundTo 17 m e)).strip

end Digits

end CircuitGraph
