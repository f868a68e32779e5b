import CircuitGraph.Graph.Basic

/-
  Topological order and exploration.

  The order is built by taking, again and again, the smallest
  node all of whose predecessors have been taken.  Each node
  counts the predecessors that are still to be taken.
-/

---- Counting Down ----

namespace CircuitGraph

/- A node waits for one node less, and is put in its place among the ready ones at none. -/
def countDown (waits : List (Nat × Int) × List Nat) (n : Nat) : List (Nat × Int) × List Nat :=
  let counts := waits.1.map (fun e => if e.1 = n then (n, e.2 - 1) else e)
  (counts, if counts.contains (n, 0) then insertId n waits.2 else waits.2)

/-
  Takes the first of the ready nodes, as long as there is one,
  and counts down those next to it.  Gives the nodes taken, in
  order, and the counts in the end.
-/
def takeReady (next : Nat → List Nat) :
    Nat → List (Nat × Int) → List Nat → List Nat × List (Nat × Int)
  | 0, counts, _ => ([], counts)
  | _ + 1, counts, [] => ([], counts)
  | turns + 1, counts, n :: ready =>
    let (counts', ready') := (next n).foldl countDown (counts, ready)
    let (order, left) := takeReady next turns counts' ready'
    (n :: order, left)

/-
  The given nodes, each after those that it waits for and the
  smaller first where there is a choice, and those that wait
  for ever.
-/
def orderNodes (ids : List Nat) (before next : Nat → List Nat) : List Nat × List Nat :=
  let counts := ids.map (fun n => (n, ((before n).length : Int)))
  let ready := sortIds ((counts.filter (fun e => e.2 == 0)).map Prod.fst)
  let (order, left) := takeReady next ids.length counts ready
  (order, sortIds ((left.filter (fun e => 0 < e.2)).map Prod.fst))

---- Topological Order ----

namespace Graph

variable {K : Type}

def topologicalOrder (g : Graph K) : Except Fault (List Nat) :=
  let (order, stuck) := orderNodes g.nodeIds g.predecessors g.successors
  if order.length = g.nodeIds.length then .ok order
  else .error (.structural (.cycle (stuck.take 8)))

def operationOrder (g : Graph K) : Except Fault (List Nat) := do
  return (← g.topologicalOrder).filter isOpId

---- Spelled Nodes ----

def predecessorSlots (g : Graph K) (n : Nat) : List Slot :=
  let entering := g.wires.filter (fun w => w.dst.node == n)
  sortSlots ((entering.mergeSort (fun v w => v.dst.index ≤ w.dst.index)).map (fun w => w.src.owner))

def successorSlots (g : Graph K) (n : Nat) : List Slot :=
  let leaving := g.wires.filter (fun w => w.src.node == n)
  sortSlots ((leaving.mergeSort (fun v w => v.src.index ≤ w.src.index)).map (fun w => w.dst.owner))

def neighbourSlots (g : Graph K) (n : Nat) : List Slot :=
  sortSlots (g.predecessorSlots n ++ g.successorSlots n)

/-
  A node of an order in which every node comes after its
  predecessors.  If some of them are in the order, the wires
  of the last one spell the node; if not, `start` does.
-/
def slotIn (g : Graph K) (start : List Slot) (order : List Nat) (n : Nat) : Slot :=
  let before := g.predecessors n
  match order.reverse.find? (fun p => before.contains p) with
  | some p => .among (g.successorSlots p) n
  | none => .among start n

def slotOrder (g : Graph K) : Except Fault (List Slot) := do
  let order ← g.topologicalOrder
  return order.map (g.slotIn [] order)

def operationSlots (g : Graph K) : Except Fault (List Slot) := do
  return (← g.slotOrder).filter (fun s => isOpId s.toNat)

end Graph

---- Exploration ----

def unseen (domain seen : List Nat) : List Nat :=
  domain.filter (fun n => !seen.contains n)

theorem length_unseen_cons_lt {domain seen : List Nat} {n : Nat} (hMem : n ∈ domain)
    (hNew : n ∉ seen) : (unseen domain (n :: seen)).length < (unseen domain seen).length := by
  have hSub :
      unseen domain (n :: seen) = (unseen domain seen).filter (fun m => m != n) := by
    rw [unseen, unseen, List.filter_filter]
    congr 1
    funext m
    by_cases h : m = n <;> simp [h]
  rw [hSub]
  refine List.length_filter_lt_length_iff_exists.2 ⟨n, ?_, by simp⟩
  simp [unseen, hMem, hNew]

/-
  All members of `domain` that can be reached from the stack
  along `next`, added in front of those already seen.  The
  things on the stack stand for their keys.
-/
def explore {α : Type} (key : α → Nat) (domain : List Nat) (next : Nat → List α)
    (stack seen : List α) : List α :=
  match stack with
  | [] => seen
  | a :: rest =>
    if _h : key a ∈ domain ∧ key a ∉ seen.map key then
      explore key domain next (next (key a) ++ rest) (a :: seen)
    else
      explore key domain next rest seen
termination_by ((unseen domain (seen.map key)).length, stack.length)
decreasing_by
  · exact Prod.Lex.left _ _ (length_unseen_cons_lt _h.1 _h.2)
  · exact Prod.Lex.right _ (Nat.lt_succ_self _)

end CircuitGraph
