import CircuitGraph.Sorting.Merge

/-
  Putting lists in order by merging their runs.

  The list is cut into runs, short ones are made longer by
  insertion, and neighbours are merged in an order that keeps
  the merges balanced.
-/

---- Waiting Runs ----

namespace CircuitGraph

/-
  A run that waits to be merged: where it starts in the list,
  and the depth of its boundary with the next run in a
  balanced tree of merges.
-/
structure Pending (α : Type) where
  run : List α
  start : Nat
  depth : Nat

/- Runs that wait, the latest first, and the patience for the next merge. -/
structure Pile (α : Type) where
  waiting : List (Pending α)
  patience : Nat

namespace Pile

variable {α : Type}

def join (before : α → α → Bool) (patience : Nat) (left right : Pending α) : Pending α × Nat :=
  let (merged, rest) := Sorting.merge before patience left.run right.run
  ({ left with run := merged }, rest)

/- Merges the latest runs while the boundary between them lies deeper than the given depth. -/
def collapse (before : α → α → Bool) (depth patience : Nat) (top : Pending α) :
    List (Pending α) → Pile α
  | [] => ⟨[top], patience⟩
  | next :: others =>
    if depth < next.depth then
      let (merged, rest) := join before patience next top
      collapse before depth rest merged others
    else ⟨top :: next :: others, patience⟩

def collapseAll (before : α → α → Bool) : Nat → Pile α → List α
  | 0, p => p.waiting.flatMap Pending.run
  | fuel + 1, p =>
    match p.waiting with
    | [] => []
    | [only] => only.run
    | top :: next :: third :: others =>
      if third.run.length < top.run.length then
        let (merged, rest) := join before p.patience third next
        collapseAll before fuel ⟨top :: merged :: others, rest⟩
      else
        let (merged, rest) := join before p.patience next top
        collapseAll before fuel ⟨merged :: third :: others, rest⟩
    | [top, next] => (join before p.patience next top).1.run

end Pile

---- Arranging ----

namespace Sorting

variable {α : Type}

/-
  The first binary place at which two fractions of `size`
  differ.  They are given by their numerators.
-/
def splitDepth (size : Nat) : Nat → Nat → Nat → Nat
  | 0, _, _ => 0
  | fuel + 1, a, b =>
    if size ≤ a then 1 + splitDepth size fuel (2 * (a - size)) (2 * (b - size))
    else if size ≤ b then 1
    else 1 + splitDepth size fuel (2 * a) (2 * b)

def boundaryDepth (size : Nat) (left : Pending α) (next : Nat) : Nat :=
  let middle := 2 * left.start + left.run.length
  splitDepth size (size + 1) middle (middle + left.run.length + next)

/-
  The least length of a run that is worth a merge: the leading
  six binary digits of the size of the list, and one more if
  any digit that was left out is not zero.
-/
def leastRun : Nat → Nat → Nat → Nat
  | 0, size, more => size + more
  | fuel + 1, size, more =>
    if size < 64 then size + more
    else leastRun fuel (size / 2) (max more (size % 2))

def push (before : α → α → Bool) (size start : Nat) (run : List α) (p : Pile α) : Pile α :=
  match p.waiting with
  | [] => { p with waiting := [⟨run, start, 0⟩] }
  | top :: others =>
    let depth := boundaryDepth size top run.length
    let collapsed := Pile.collapse before depth p.patience top others
    match collapsed.waiting with
    | [] => { collapsed with waiting := [⟨run, start, 0⟩] }
    | latest :: rest =>
      { collapsed with waiting := ⟨run, start, 0⟩ :: { latest with depth := depth } :: rest }

def cut (before : α → α → Bool) (size least : Nat) : Nat → List α → Pile α → Pile α
  | 0, _, p => p
  | fuel + 1, xs, p =>
    if xs.isEmpty then p
    else
      let (found, rest) := firstRun before xs
      let missing := least - found.length
      let run := (rest.take missing).foldl (insert before) found
      cut before size least fuel (rest.drop missing)
        (push before size (size - xs.length) run p)

def arrange (before : α → α → Bool) (xs : List α) : List α :=
  let size := xs.length
  Pile.collapseAll before size
    (cut before size (leastRun size size 0) size xs ⟨[], Merging.threshold⟩)

end Sorting

end CircuitGraph
