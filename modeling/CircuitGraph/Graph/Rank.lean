import CircuitGraph.Graph.Edit
import CircuitGraph.Graph.Order

/-
  Ranks: numbers that ascend along every wire.

  Ranks are computed once, from the topological order, and
  then kept.
-/

---- Room between Ranks ----

namespace CircuitGraph

namespace Graph

variable {K : Type} [Scalar K]

/-
  Values for `count` nodes in a row, above `low` and below
  `high` where these are given: evenly spread between both,
  otherwise in steps of one.
-/
def spread (low high : Option K) (count : Nat) : List K :=
  let places := List.range count
  match low, high with
  | none, none => places.map (fun i : Nat => (i : K))
  | some a, none => places.map (fun i : Nat => a + (i : K) + ((1 : Nat) : K))
  | none, some b => places.map (fun i : Nat => b - (count : K) + (i : K))
  | some a, some b =>
    let step := (b - a) / ((count + 1 : Nat) : K)
    places.map (fun i : Nat => a + step * ((i + 1 : Nat) : K))

def ascending : List K → Bool
  | a :: b :: rest => decide (a < b) && ascending (b :: rest)
  | _ => true

---- Groups of New Nodes ----

variable {K : Type}

/-
  The nodes among the waiting ones that hang together with the
  given one.  Of the neighbours of a node the greatest is
  visited first; a node is spelled as where its visit came
  from.
-/
def groupOf (g : Graph K) (waiting : List Nat) (n : Nat) : List Slot :=
  sortSlots (explore Slot.toNat waiting (fun m => (g.neighbourSlots m).reverse) [.number n] [])

def groupOrder? (g : Graph K) (group : List Nat) : Option (List Nat) :=
  let inside (ns : List Nat) := ns.filter (fun m => group.contains m)
  let (order, _) := orderNodes group (fun n => inside (g.predecessors n))
    (fun n => inside (g.successors n))
  if order.length = group.length then some order else none

def outerRanks (ranks : List (Nat × K)) (next : Nat → List Nat) (group : List Nat) : List K :=
  (group.flatMap next).filterMap (fun m =>
    if group.contains m then none else valueOf? ranks m)

variable [Scalar K]

def placeGroup? (g : Graph K) (ranks : List (Nat × K)) (group : List Nat) :
    Option (List (Nat × K)) := do
  let order ← g.groupOrder? group
  let low := Scalar.greatest? (outerRanks ranks g.predecessors group)
  let high := Scalar.least? (outerRanks ranks g.successors group)
  let values := spread low high order.length
  if ascending (low.toList ++ values ++ high.toList) then
    some (order.zip values)
  else none

/-
  The ranks together with those of all waiting nodes, group by
  group from the smallest waiting id, and the spelling of the
  new ones.  Each turn places at least one node, so their
  number bounds the turns.
-/
def placeWaiting? (g : Graph K) :
    Nat → List Nat → List (Nat × K) → Option (List (Nat × K) × List Slot)
  | 0, _, ranks => some (ranks, [])
  | turns + 1, waiting, ranks =>
    match sortIds waiting with
    | [] => some (ranks, [])
    | n :: _ => do
      let group := g.groupOf waiting n
      let placed ← g.placeGroup? ranks (group.map Slot.toNat)
      let order := placed.map Prod.fst
      let rest := waiting.filter (fun m => !Slot.covers group m)
      let (ranks', slots) ← g.placeWaiting? turns rest (ranks ++ placed)
      return (ranks', order.map (g.slotIn group order) ++ slots)

---- Keeping Ranks ----

variable {K : Type} [Scalar K]

def rankAfresh : Edit K (List (Nat × K)) := do
  let g ← get
  let order ← Edit.ofExcept g.topologicalOrder
  let ranks := order.zipIdx.map (fun entry => (entry.1, (entry.2 : K)))
  set { g with
    ranks := some ranks
    unranked := []
    rankedAs := order.map (g.slotIn [] order) }
  return ranks

/- The ranks of all nodes, kept from earlier calls as far as possible. -/
def topologicalRanks : Edit K (List (Nat × K)) := do
  let g ← get
  match g.ranks with
  | none => rankAfresh
  | some ranks =>
    match g.placeWaiting? g.unranked.length g.unranked ranks with
    | some (ranks', slots) =>
      set { g with ranks := some ranks', unranked := [], rankedAs := g.rankedAs ++ slots }
      return ranks'
    | none =>
      set g.dropRanks
      rankAfresh

def sortedRanks (g : Graph K) (ranks : List (Nat × K)) : List (Slot × K) :=
  (ranks.mergeSort (fun a b => a.1 ≤ b.1)).map (fun entry =>
    (.among g.rankedAs entry.1, entry.2))

end Graph

end CircuitGraph
