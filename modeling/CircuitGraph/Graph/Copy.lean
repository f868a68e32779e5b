import CircuitGraph.Graph.Edit

/-
  Copies of graphs.

  A copy has the same ids, wires and ranks, with its
  operations in ascending order of their ids, and a version
  that counts the nodes put into it.
-/

---- Copying ----

namespace CircuitGraph

namespace Graph

variable {K : Type}

def sortedOps (g : Graph K) : List (Node (Graph K)) :=
  g.ops.mergeSort (fun a b => a.id ≤ b.id)

def copy (g : Graph K) : Graph K :=
  g.fold (fun g bodies =>
    { g with
      ops := g.sortedOps.map (fun node => { node with body := valueOf? bodies node.id })
      index := g.index.copy
      version := g.ops.length + 2 })

def takeOver (g other : Graph K) : Graph K :=
  { g with
    ops := other.ops
    wires := other.wires
    index := other.index
    nextId := max g.nextId other.nextId
    version := g.version + 1
    ranks := none
    unranked := []
    rankedAs := [] }

---- Nested Graphs by Path ----

def bodyAt? (g : Graph K) : List Nat → Option (Graph K)
  | [] => some g
  | n :: path =>
    match g.op? n with
    | some node =>
      match node.body with
      | some body => body.bodyAt? path
      | none => none
    | none => none

def replaceAt (g : Graph K) : List Nat → Graph K → Graph K
  | [], body => body
  | n :: path, body =>
    { g with
      ops := g.ops.map (fun node =>
        if node.id = n then
          { node with body := node.body.map (fun inner => inner.replaceAt path body) }
        else node) }

/-
  The graph with a nested graph of its own for the container
  at the end of a path, whose body was a graph around it.
-/
def fillAt (g : Graph K) : List Nat → Graph K → Graph K
  | [], _ => g
  | n :: path, body =>
    { g with
      ops := g.ops.map (fun node =>
        if node.id = n then
          match node.body with
          | some inner => { node with body := some (inner.fillAt path body) }
          | none => { node with body := some body, enclosing := none }
        else node) }

/-
  The graph in which the container at the end of a path has no
  graph of its own: its body counts as a graph around it.
-/
def openAt (g : Graph K) : List Nat → Graph K
  | [] => g
  | n :: path =>
    { g with
      ops := g.ops.map (fun node =>
        if node.id = n then
          if path.isEmpty then { node with body := none, enclosing := node.boundary? }
          else { node with body := node.body.map (fun inner => inner.openAt path) }
        else node) }

end Graph

end CircuitGraph
