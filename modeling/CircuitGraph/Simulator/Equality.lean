import CircuitGraph.Simulator.Tolerance
import CircuitGraph.Simulator.Unitary

/-
  Comparison of unitaries.

  Two unitaries count as equal if one is a multiple of the
  other by a phase.
-/

---- Closeness ----

namespace CircuitGraph

namespace Amplitude

def isClose (atol : Float) (a b : Amplitude) : Bool :=
  a.same b || (b.isFinite && decide ((a.sub b).abs ≤ atol + 1e-5 * b.abs))

end Amplitude

---- Equality up to a Phase ----

def Grid.shape {R : Type} (u : Grid R) : List Nat :=
  match u[0]? with
  | some row => [u.size, row.size]
  | none => [u.size]

/- A modulus with the row and the column where it stands. -/
structure Peak where
  modulus : Float
  row : Nat
  column : Nat
  deriving Repr, Inhabited

namespace Peak

def floor : Peak :=
  ⟨-1.0, 0, 0⟩

def raise (p : Peak) (row : Nat) (entry : Amplitude × Nat) : Peak :=
  let x := entry.1.abs
  if !p.modulus.isNaN && (x.isNaN || p.modulus < x) then ⟨x, row, entry.2⟩ else p

end Peak

namespace Grid

def peak (u : Grid Amplitude) : Peak :=
  u.zipIdx.foldl (fun p (row, i) => row.zipIdx.foldl (fun p entry => p.raise i entry) p) .floor

def allEntries (u : Grid Amplitude) (test : Amplitude → Bool) : Bool :=
  u.all (fun row => row.all test)

def allPairs (u v : Grid Amplitude) (test : Amplitude → Amplitude → Bool) : Bool :=
  (u.zip v).all (fun (r, s) => (r.zip s).all (fun (x, y) => test x y))

def entry? {R : Type} (u : Grid R) (i j : Nat) : Option R :=
  u[i]?.bind (fun row => row[j]?)

/-
  Whether matrices are equal up to the phase between two of
  their entries that stand at the same place.
-/
def equalUpTo (atol : Float) (u v : Grid Amplitude) (x y : Amplitude) : Bool :=
  if x.abs < atol then
    v.allEntries (fun y => y.isClose atol 0)
  else
    let phase := y.div x
    (Amplitude.ofReal phase.abs).isClose atol 1
      && u.allPairs v (fun x y => (x.mul phase).isClose atol y)

end Grid

/-
  Whether two matrices are equal up to a phase.  The error
  allowed must be a number, but it is looked at only if the
  matrices have the same shape and an entry.
-/
def unitariesEqual (u v : Grid Amplitude) (atol : Value) : Except Fault Bool := do
  if u.shape ≠ v.shape then
    return false
  let p := u.peak
  match u.entry? p.row p.column, v.entry? p.row p.column with
  | some x, some y => return Grid.equalUpTo (← atol.tolerance) u v x y
  | _, _ => throw (.argument .noEntries)

/- The error that is allowed if nothing else is asked for. -/
def standardTolerance : Value :=
  .decimal 1e-8

namespace Graph

variable {K : Type}

def isEquivalent (g h : Graph K) (atol : Value) : Except Fault Bool := do
  if g.signature ≠ h.signature then
    return false
  let u ← g.unitary
  let v ← h.unitary
  unitariesEqual u v atol

end Graph

end CircuitGraph
