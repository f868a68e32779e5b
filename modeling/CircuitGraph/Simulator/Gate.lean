import CircuitGraph.Fault
import CircuitGraph.Simulator.Amplitude

/-
  Matrices and the matrices of gates.

  The first qubit of a gate is the most significant one.
-/

---- Grids ----

namespace CircuitGraph

abbrev Grid (R : Type) : Type :=
  Array (Array R)

namespace Grid

variable {R : Type}

def ofRows (rows : List (List R)) : Grid R :=
  (rows.map List.toArray).toArray

def ofEvenRows (rows : List (List R)) : Except Fault (Grid R) :=
  match rows with
  | first :: rest =>
    if rest.all (fun row => row.length == first.length) then .ok (ofRows rows)
    else .error (.argument (.unevenShape [rows.length]))
  | [] => .ok (ofRows [])

def tabulate (rows columns : Nat) (f : Nat → Nat → R) : Grid R :=
  Array.ofFn (fun i : Fin rows => Array.ofFn (fun j : Fin columns => f i.val j.val))

def entry [Zero R] (u : Grid R) (i j : Nat) : R :=
  (u[i]?.getD #[])[j]?.getD 0

def scale [Mul R] (c : R) (u : Grid R) : Grid R :=
  u.map (fun row => row.map (fun x => c * x))

def diagonal [Zero R] (entries : List R) : Grid R :=
  tabulate entries.length entries.length (fun i j => if i = j then entries[i]?.getD 0 else 0)

def ofPermutation [Zero R] [One R] (images : List Nat) : Grid R :=
  tabulate images.length images.length (fun i j => if images[j]? = some i then 1 else 0)

end Grid

---- Gates ----

variable {R : Type} [Amplitudes R]

def phaseHalf (t : Float) : R :=
  Amplitudes.cosHalf t + Amplitudes.i * Amplitudes.sinHalf t

def phaseHalfBack (t : Float) : R :=
  Amplitudes.cosHalf t + -(Amplitudes.i * Amplitudes.sinHalf t)

def fixedMatrix? : Kind → Option (Grid R)
  | .x => some (.ofRows [[0, 1], [1, 0]])
  | .y => some (.ofRows [[0, -Amplitudes.i], [Amplitudes.i, 0]])
  | .z => some (.diagonal [1, -1])
  | .h => some (.scale Amplitudes.rootHalf (.ofRows [[1, 1], [1, -1]]))
  | .s => some (.diagonal [1, Amplitudes.i])
  | .sdg => some (.diagonal [1, -Amplitudes.i])
  | .t => some (.diagonal [1, Amplitudes.rootHalf * (1 + Amplitudes.i)])
  | .tdg => some (.diagonal [1, Amplitudes.rootHalf * (1 + -Amplitudes.i)])
  | .sx =>
    let plus : R := 1 + Amplitudes.i
    let minus : R := 1 + -Amplitudes.i
    some (.scale Amplitudes.half (.ofRows [[plus, minus], [minus, plus]]))
  | .cx => some (.ofPermutation [0, 1, 3, 2])
  | .cz => some (.diagonal [1, 1, 1, -1])
  | .swap => some (.ofPermutation [0, 2, 1, 3])
  | .ecr =>
    let i : R := Amplitudes.i
    some (.scale Amplitudes.rootHalf
      (.ofRows [[0, 1, 0, i], [1, 0, -i, 0], [0, i, 0, 1], [-i, 0, 1, 0]]))
  | .ccx => some (.ofPermutation [0, 1, 2, 3, 4, 5, 7, 6])
  | .ccz => some (.diagonal [1, 1, 1, 1, 1, 1, 1, -1])
  | _ => none

def angleMatrix? (t : Float) : Kind → Option (Grid R)
  | .rx =>
    let c : R := Amplitudes.cosHalf t
    let s : R := -(Amplitudes.i * Amplitudes.sinHalf t)
    some (.ofRows [[c, s], [s, c]])
  | .ry =>
    let c : R := Amplitudes.cosHalf t
    let s : R := Amplitudes.sinHalf t
    some (.ofRows [[c, -s], [s, c]])
  | .rz => some (.diagonal [phaseHalfBack t, phaseHalf t])
  | .cp => some (.diagonal [1, 1, 1, phaseHalf t * phaseHalf t])
  | .rzz => some (.diagonal [phaseHalfBack t, phaseHalf t, phaseHalf t, phaseHalfBack t])
  | _ => none

def needsFiniteAngle : Kind → Bool
  | .rx | .ry => true
  | _ => false

def gateMatrix (kind : Kind) (params : List Float) : Except Fault (Grid R) :=
  match fixedMatrix? kind with
  | some u => .ok u
  | none =>
    if kind.arity = 0 then .error (.argument (.noUnitary kind))
    else
      match params with
      | [] => .error .outOfBounds
      | t :: _ =>
        if needsFiniteAngle kind && t.isInf then .error (.argument .angleDomain)
        else
          match angleMatrix? t kind with
          | some u => .ok u
          | none => .error (.argument (.noUnitary kind))

end CircuitGraph
