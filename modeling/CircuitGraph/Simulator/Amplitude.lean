/-
  Amplitudes of quantum states.

  Gates need few numbers besides the operations of a ring: the
  imaginary unit, one half, the root of one half, and cosine
  and sine of half an angle.
-/

---- Numbers for Gates ----

namespace CircuitGraph

/- Numbers that gate matrices can be written in. -/
class Amplitudes (R : Type) extends Zero R, One R, Add R, Neg R, Mul R where
  i : R
  half : R
  rootHalf : R
  cosHalf : Float → R
  sinHalf : Float → R

---- Pairs of Doubles ----

/- A complex number with doubles as its parts. -/
structure Amplitude where
  re : Float
  im : Float
  deriving Repr, Inhabited

namespace Amplitude

def ofReal (x : Float) : Amplitude :=
  ⟨x, 0.0⟩

@[inline]
def add (a b : Amplitude) : Amplitude :=
  ⟨a.re + b.re, a.im + b.im⟩

def neg (a : Amplitude) : Amplitude :=
  ⟨-a.re, -a.im⟩

@[inline]
def mul (a b : Amplitude) : Amplitude :=
  ⟨a.re * b.re - a.im * b.im, a.re * b.im + a.im * b.re⟩

instance instAmplitudes : Amplitudes Amplitude where
  zero := ofReal 0.0
  one := ofReal 1.0
  add := add
  neg := neg
  mul := mul
  i := ⟨0.0, 1.0⟩
  half := ofReal 0.5
  rootHalf := ofReal (1.0 / Float.sqrt 2.0)
  cosHalf := fun t => ofReal (Float.cos (t / 2.0))
  sinHalf := fun t => ofReal (Float.sin (t / 2.0))

def sub (a b : Amplitude) : Amplitude :=
  ⟨a.re - b.re, a.im - b.im⟩

/-
  The quotient of two amplitudes: the numerator is multiplied
  by the inverse of the divisor, which is scaled by its larger
  part.
-/
def div (a b : Amplitude) : Amplitude :=
  let x := b.re.abs
  let y := b.im.abs
  if y ≤ x then
    if x == 0.0 then ⟨a.re / x, a.im / x⟩
    else
      let ratio := b.im / b.re
      let scale := 1.0 / (b.re + b.im * ratio)
      ⟨(a.re + a.im * ratio) * scale, (a.im - a.re * ratio) * scale⟩
  else
    let ratio := b.re / b.im
    let scale := 1.0 / (b.im + b.re * ratio)
    ⟨(a.re * ratio + a.im) * scale, (a.im * ratio - a.re) * scale⟩

/-
  The length of the diagonal of a rectangle, whose sides are
  neither huge nor tiny.  The root of the sum of squares is
  corrected once by its own error.
-/
def diagonal (large small : Float) : Float :=
  let h := Float.sqrt (large * large + small * small)
  let (t, u) :=
    if h ≤ 2.0 * small then
      let delta := h - small
      (large * (2.0 * delta - large), (delta - 2.0 * (large - small)) * delta)
    else
      let delta := h - large
      (2.0 * delta * (large - 2.0 * small), (4.0 * delta - small) * small + delta * delta)
  h - (t + u) / (2.0 * h)

def rangeScale : Float :=
  Float.scaleB 1.0 600

def hypotenuse (large small : Float) : Float :=
  if small ≤ large * Float.scaleB 1.0 (-54) then large + small
  else if Float.scaleB 1.0 511 < large then
    diagonal (large / rangeScale) (small / rangeScale) * rangeScale
  else if small < Float.scaleB 1.0 (-459) then
    diagonal (large * rangeScale) (small * rangeScale) / rangeScale
  else diagonal large small

def abs (a : Amplitude) : Float :=
  let x := a.re.abs
  let y := a.im.abs
  if x.isInf || y.isInf then 1.0 / 0.0
  else if x.isNaN || y.isNaN then 0.0 / 0.0
  else if x < y then hypotenuse y x
  else hypotenuse x y

def isFinite (a : Amplitude) : Bool :=
  a.re.isFinite && a.im.isFinite

def same (a b : Amplitude) : Bool :=
  a.re == b.re && a.im == b.im

end Amplitude

end CircuitGraph
