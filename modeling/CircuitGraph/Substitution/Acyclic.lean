import CircuitGraph.Graph.Order

/-
  Search for a cycle from given nodes.

  The search goes down along wires and keeps the nodes of the
  current path on a stack, each with the successors that are
  still to be visited.
-/

namespace CircuitGraph

def pendingVisits : List (Nat × List Slot) → Nat
  | [] => 0
  | entry :: rest => entry.2.length + 1 + pendingVisits rest

/-
  Visits all members of `domain` that the stack leads to.
  Gives the first node found that closes a cycle, or else the
  nodes visited.
-/
def searchCycle (domain : List Nat) (next : Nat → List Slot) (visited : List Nat)
    (stack : List (Nat × List Slot)) : Except Slot (List Nat) :=
  match stack with
  | [] => .ok visited
  | (_, []) :: rest => searchCycle domain next visited rest
  | (n, s :: ss) :: rest =>
    let m := s.toNat
    if m = n ∨ rest.any (fun entry => entry.1 == m) then .error s
    else if _h : m ∈ domain ∧ m ∉ visited then
      searchCycle domain next (m :: visited) ((m, next m) :: (n, ss) :: rest)
    else
      searchCycle domain next visited ((n, ss) :: rest)
termination_by ((unseen domain visited).length, pendingVisits stack)
decreasing_by
  · exact Prod.Lex.right _ (by simp [pendingVisits])
  · exact Prod.Lex.left _ _ (length_unseen_cons_lt _h.1 _h.2)
  · exact Prod.Lex.right _ (by simp [pendingVisits])

namespace Graph

variable {K : Type}

def searchCycleFrom (g : Graph K) : List Nat → List Nat → Except Fault Unit
  | [], _ => .ok ()
  | n :: ns, visited =>
    if visited.contains n then g.searchCycleFrom ns visited
    else if g.hasNode n then
      match searchCycle g.nodeIds g.successorSlots (n :: visited) [(n, g.successorSlots n)] with
      | .ok visited' => g.searchCycleFrom ns visited'
      | .error s => .error (.structural (.closedCycle s))
    else .error (.unknownKey (.whole n))

end Graph

end CircuitGraph
