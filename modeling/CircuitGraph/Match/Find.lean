import CircuitGraph.Match.Basic
import CircuitGraph.Match.Convexity

/-
  Finding matches.

  A binding is a match if its region can be replaced: each
  boundary input is fed by one pin from outside, no pin but
  those behind boundary outputs feeds the outside, and the
  region is convex.
-/

---- Regions That Can Be Replaced ----

namespace CircuitGraph

namespace Pattern

variable {K : Type}

def pinAt (binding : List Slot) (s : Spot) : Except Fault Pin :=
  match binding[s.var]? with
  | some owner => .ok ⟨owner, s.slot⟩
  | none => .error .outOfBounds

def fedFromOutside (g : Graph K) (binding : List Nat) (pins : List Pin) : Bool :=
  match pins.map (fun p => g.source? p.node p.index) with
  | some src :: rest =>
    rest.all (fun s => s.any src.same) && !binding.contains src.node
  | _ => false

def feedsOutside (g : Graph K) (binding : List Nat) (n i : Nat) : Bool :=
  (g.targets n i).any (fun p => !binding.contains p.node)

/-
  Whether only exposed pins feed the outside.  Goes through
  the nodes of the binding and the numbers of their output
  pins side by side.
-/
def isClosed (g : Graph K) (binding : List Nat) (exposed : List Pin) :
    List Nat → List Nat → Except Fault Bool
  | [], _ => .ok true
  | _ :: _, [] => .error .outOfBounds
  | n :: ns, arity :: arities =>
    let leaks := (List.range arity).any (fun i =>
      !exposed.any (Pin.of n i).same && feedsOutside g binding n i)
    if leaks then .ok false else isClosed g binding exposed ns arities

def boundary (p : Pattern) (g : Graph K) (rule : Nat) (root : Slot) (binding : List Slot) :
    Except Fault (Option Match) := do
  let ids := binding.map Slot.toNat
  let inputs ← p.inputs.mapM (fun spots => spots.mapM (pinAt binding))
  if !inputs.all (fedFromOutside g ids) then
    return none
  let outputs ← p.outputs.mapM (pinAt binding)
  if ← isClosed g ids outputs ids p.outArity then
    return some ⟨rule, root, binding, inputs, outputs⟩
  else
    return none

def complete [Scalar K] (p : Pattern) (rule : Nat) (root : Slot) (binding : List Slot) :
    Edit K (Option Match) := do
  match ← Edit.ofExcept (p.boundary (← get) rule root binding) with
  | none => return none
  | some m =>
    if ← Graph.isConvex (binding.map Slot.toNat) then
      return some m
    else
      return none

end Pattern

---- Searching ----

namespace RuleSet

variable {K : Type} [Scalar K]

def completeAll (rs : RuleSet K) (anchor : Slot) : List (Nat × List Slot) → Edit K (List Match)
  | [] => return []
  | (rule, binding) :: rest => do
    let p ← Edit.ofExcept (rs.pattern rule)
    let found ← p.complete rule anchor binding
    let others ← rs.completeAll anchor rest
    return found.toList ++ others

def matchesAt (rs : RuleSet K) (anchor : Slot) : Edit K (List Match) := do
  rs.completeAll anchor (rs.bindingsAt (← get) anchor)

def anchors (rs : RuleSet K) (g : Graph K) (among : Option (List Slot)) : List Slot :=
  let slots : List Slot :=
    match among with
    | some slots => (sortSlots slots).filter (fun s => isOpId s.toNat)
    | none => g.opIds.map .number
  slots.filter (fun s => (g.kindOf? s.toNat).any (fun kind => rs.rootKinds.contains kind))

def matchesAtAll (rs : RuleSet K) : List Slot → Edit K (List Match)
  | [] => return []
  | anchor :: rest => do
    let found ← rs.matchesAt anchor
    let others ← rs.matchesAtAll rest
    return found ++ others

def findMatches (rs : RuleSet K) (among : Option (List Slot)) : Edit K (List Match) := do
  rs.matchesAtAll (rs.anchors (← get) among)

def firstAmong (rs : RuleSet K) : List Slot → Edit K (Option Match)
  | [] => return none
  | anchor :: rest => do
    match ← rs.matchesAt anchor with
    | m :: _ => return some m
    | [] => rs.firstAmong rest

def findFirst (rs : RuleSet K) : Edit K (Option Match) := do
  rs.firstAmong (rs.anchors (← get) none)

end RuleSet

---- Live Matches ----

namespace Pattern

variable {K : Type}

/-
  Whether the given nodes still meet the constraints, when
  they are bound one by one in their order.
-/
def retraces (g : Graph K) (nodes : List Slot) : List Slot → List Constraint → Except Fault Bool
  | _, [] => .ok true
  | binding, c :: cs =>
    let extended : Except Fault (Option (List Slot)) :=
      match c with
      | .link .. => .ok (if (c.advance g binding).isEmpty then none else some binding)
      | .root kind params =>
        match nodes[binding.length]? with
        | none => .error .outOfBounds
        | some s =>
          .ok (if Constraint.fits g kind params s.toNat then some (binding ++ [s]) else none)
      | .follow .. =>
        match nodes[binding.length]? with
        | none => .error .outOfBounds
        | some s =>
          let reached := (c.advance g binding).any (fun b =>
            b.getLast?.any (fun t => t.toNat == s.toNat))
          .ok (if reached then some (binding ++ [s]) else none)
    match extended with
    | .error fault => .error fault
    | .ok none => .ok false
    | .ok (some binding') => retraces g nodes binding' cs

end Pattern

namespace RuleSet

variable {K : Type} [Scalar K]

def isLive (rs : RuleSet K) (m : Match) : Edit K Bool := do
  let g ← get
  if !m.ids.all g.hasNode then
    return false
  let p ← Edit.ofExcept (rs.pattern m.rule)
  if ← Edit.ofExcept (Pattern.retraces g m.nodes [] p.constraints) then
    return (← p.complete m.rule m.root m.nodes).any m.same
  else
    return false

end RuleSet

---- Neighbourhoods ----

namespace Graph

variable {K : Type}

def opNeighbours (g : Graph K) (n : Nat) : List Slot :=
  (g.neighbourSlots n).filter (fun s => isOpId s.toNat)

/- How far away a node was found. -/
def distance? : List (Slot × Nat) → Nat → Option Nat
  | [], _ => none
  | (s, d) :: rest, n => if s.toNat = n then some d else distance? rest n

/-
  Searches on from the queue, first in first out, and not past
  the radius.  An operation is put down, as it is spelled where
  it is found first, with its distance, and enters the queue.
-/
def searchFrom (g : Graph K) (radius : Int) :
    Nat → List Slot → List (Slot × Nat) → List (Slot × Nat)
  | 0, _, dist => dist
  | _ + 1, [], dist => dist
  | fuel + 1, s :: queue, dist =>
    let d := (distance? dist s.toNat).getD 0
    if radius ≤ d then g.searchFrom radius fuel queue dist
    else
      let found := (g.opNeighbours s.toNat).filter (fun m => (distance? dist m.toNat).isNone)
      g.searchFrom radius fuel (queue ++ found) (dist ++ found.map (·, d + 1))

/-
  The operations that are at most `radius` wires away from
  the given ones, never through the boundary.  Each of the
  given ones, and each operation once, is taken from the queue.
-/
def neighbourhood (g : Graph K) (slots : List Slot) (radius : Int) : List Slot :=
  let start := slots.filter (fun s => isOpId s.toNat && g.hasNode s.toNat)
  let dist := (Slot.firsts [] start).map (·, 0)
  sortSlots ((g.searchFrom radius (start.length + g.ops.length) start dist).map Prod.fst)

/-
  The neighbourhood of the nodes that a caller lists.  The
  radius may be any number, and it is looked at only if one of
  the nodes is an operation of the graph.  No shortest way has
  more wires than there are operations.
-/
def neighbourhoodOf (g : Graph K) (nodes radius : Value) : Except Fault (List Slot) := do
  let slots := (← nodes.slots).filter (fun s => isOpId s.toNat && g.hasNode s.toNat)
  if slots.isEmpty then
    return []
  return g.neighbourhood slots ((← radius.reach).getD g.ops.length)

end Graph

namespace RuleSet

variable {K : Type} [Scalar K]

def findMatchesNear (rs : RuleSet K) (touched : List Slot) : Edit K (List Match) := do
  rs.findMatches (some ((← get).neighbourhood touched rs.radius))

end RuleSet

end CircuitGraph
