import CircuitGraph.Sorting.Arrange

/-
  Heaps.

  A heap is an array whose element at a place `n` does not
  come behind those at `2 n + 1` and `2 n + 2`, its children.
-/

---- Moving Elements ----

namespace CircuitGraph

namespace Heap

variable {α : Type}

/- Moves an element up, but not above a start, while it comes before its parent. -/
def rise (before : α → α → Bool) (start : Nat) : Nat → Nat → Array α → Array α
  | 0, _, h => h
  | fuel + 1, place, h =>
    if start < place then
      let parent := (place - 1) / 2
      match h[place]?, h[parent]? with
      | some x, some y =>
        if before x y then rise before start fuel parent (h.swapIfInBounds place parent) else h
      | _, _ => h
    else h

def child (before : α → α → Bool) (h : Array α) (place : Nat) : Nat :=
  let left := 2 * place + 1
  match h[left]?, h[left + 1]? with
  | some x, some y => if before x y then left else left + 1
  | _, _ => left

/-
  Moves an element down to a leaf, each time to the child that
  comes first, and from there up to where it belongs.
-/
def sink (before : α → α → Bool) (start : Nat) : Nat → Nat → Array α → Array α
  | 0, _, h => h
  | fuel + 1, place, h =>
    if 2 * place + 1 < h.size then
      let next := child before h place
      sink before start fuel next (h.swapIfInBounds place next)
    else rise before start h.size place h

---- Operations ----

def push (before : α → α → Bool) (h : Array α) (x : α) : Array α :=
  rise before 0 (h.size + 1) h.size (h.push x)

def replaceTop (before : α → α → Bool) (h : Array α) (x : α) : Array α :=
  sink before 0 (h.size + 1) 0 (h.setIfInBounds 0 x)

def pop? (before : α → α → Bool) (h : Array α) : Option (α × Array α) :=
  match h.back? with
  | none => none
  | some last =>
    let rest := h.pop
    match rest[0]? with
    | none => some (last, rest)
    | some top => some (top, replaceTop before rest last)

def ofArray (before : α → α → Bool) (xs : Array α) : Array α :=
  (List.range (xs.size / 2)).reverse.foldl (fun h n => sink before n (h.size + 1) n h) xs

def first (before : α → α → Bool) : List α → List α
  | [] => []
  | x :: xs => [xs.foldl (fun least y => if before y least then y else least) x]

/-
  The elements that come first, in order and up to a number.
  They are kept in a heap with the last one of them on top,
  which gives way to an element that comes before it.
-/
def smallest (before : α → α → Bool) (count : Nat) (xs : List α) : List α :=
  if count = 1 then first before xs
  else
    let behind := fun a b => before b a
    let kept :=
      (xs.drop count).foldl
        (fun h x => if h[0]?.any (before x) then replaceTop behind h x else h)
        (ofArray behind (xs.take count).toArray)
    Sorting.arrange before kept.toList

end Heap

end CircuitGraph
