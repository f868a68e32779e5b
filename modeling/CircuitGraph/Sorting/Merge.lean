import CircuitGraph.Sorting.Run

/-
  Merging two runs.

  Elements are taken from the run whose next element comes
  first.
-/

---- The State of a Merge ----

namespace CircuitGraph

/-
  What a merge has done, the latest element first, and what is
  left of both runs.
-/
structure Merging (α : Type) where
  done : List α
  first : List α
  second : List α
  patience : Nat

abbrev Merging.Result (α β : Type) : Type :=
  Except (List α × Nat) β

namespace Merging

variable {α : Type}

def threshold : Nat :=
  7

def finish (m : Merging α) : List α × Nat :=
  (m.done.reverse ++ (m.first ++ m.second), m.patience)

def finishCrossed (m : Merging α) : List α × Nat :=
  (m.done.reverse ++ (m.second ++ m.first), m.patience)

def takeFirst (m : Merging α) (count : Nat) : Result α (Merging α) :=
  let m' :=
    { m with done := (m.first.take count).reverse ++ m.done, first := m.first.drop count }
  match m'.first with
  | [] => .error m'.finish
  | [_] => .error m'.finishCrossed
  | _ => .ok m'

def takeSecond (m : Merging α) (count : Nat) : Result α (Merging α) :=
  let m' :=
    { m with done := (m.second.take count).reverse ++ m.done, second := m.second.drop count }
  if m'.second.isEmpty then .error m'.finish else .ok m'

/- Takes single elements until one run has won as often in a row as the patience says. -/
def alternate (before : α → α → Bool) : Nat → Nat → Nat → Merging α → Result α (Merging α)
  | 0, _, _, m => .error m.finish
  | fuel + 1, firstWins, secondWins, m =>
    match m.first, m.second with
    | x :: _, y :: _ =>
      if before y x then do
        let m ← m.takeSecond 1
        if m.patience ≤ secondWins + 1 then return m
        alternate before fuel 0 (secondWins + 1) m
      else do
        let m ← m.takeFirst 1
        if m.patience ≤ firstWins + 1 then return m
        alternate before fuel (firstWins + 1) 0 m
    | _, _ => .error m.finish

def leapFirst (before : α → α → Bool) (behind : Bool) (m : Merging α) :
    Result α (Merging α × Nat) := do
  let count := Sorting.leading behind (fun x => !m.second.head?.any (fun y => before y x)) m.first
  let m ← m.takeFirst count
  return (← m.takeSecond 1, count)

def leapSecond (before : α → α → Bool) (behind : Bool) (m : Merging α) :
    Result α (Merging α × Nat) := do
  let count := Sorting.leading behind (fun y => m.first.head?.any (before y)) m.second
  let m ← m.takeSecond count
  return (← m.takeFirst 1, count)

/- Takes many elements at once as long as that pays. -/
def leap (before : α → α → Bool) (behind : Bool) : Nat → Merging α → Result α (Merging α)
  | 0, m => .error m.finish
  | fuel + 1, m => do
    let m := { m with patience := max 1 (m.patience - 1) }
    let (m, early) ← if behind then m.leapSecond before behind else m.leapFirst before behind
    let (m, late) ← if behind then m.leapFirst before behind else m.leapSecond before behind
    if threshold ≤ early || threshold ≤ late then leap before behind fuel m
    else return { m with patience := m.patience + 1 }

/- Takes elements one by one and many at once in turn. -/
def loop (before : α → α → Bool) (behind : Bool) (size : Nat) :
    Nat → Merging α → Result α (Merging α)
  | 0, m => .error m.finish
  | fuel + 1, m => do
    let m ← m.alternate before size 0 0
    let m ← leap before behind size { m with patience := m.patience + 1 }
    loop before behind size fuel m

def run (before : α → α → Bool) (behind : Bool) (patience : Nat) (first second : List α) :
    List α × Nat :=
  let size := first.length + second.length
  let merged := do
    let m ← Merging.takeSecond ⟨[], first, second, patience⟩ 1
    let m ← m.takeFirst 0
    loop before behind size size m
  match merged with
  | .ok m => m.finish
  | .error result => result

end Merging

---- Merges ----

namespace Sorting

variable {α : Type}

/- Merges two runs, the shorter one into the longer; from behind if that is the first. -/
def mergeInto (before : α → α → Bool) (patience : Nat) (xs ys : List α) : List α × Nat :=
  if xs.length ≤ ys.length then Merging.run before false patience xs ys
  else
    let (merged, left) :=
      Merging.run (fun a b => before b a) true patience ys.reverse xs.reverse
    (merged.reverse, left)

/-
  Merges two runs.  The start of the first one that comes
  before the second, and the end of the second one that comes
  behind the first, stay where they are.
-/
def merge (before : α → α → Bool) (patience : Nat) (xs ys : List α) : List α × Nat :=
  let start := leading false (fun x => !ys.head?.any (fun y => before y x)) xs
  match (xs.drop start).getLast? with
  | none => (xs ++ ys, patience)
  | some last =>
    let count := ys.length - leading true (fun y => !before y last) ys.reverse
    if count = 0 then (xs ++ ys, patience)
    else
      let (merged, left) := mergeInto before patience (xs.drop start) (ys.take count)
      (xs.take start ++ merged ++ ys.drop count, left)

end Sorting

end CircuitGraph
