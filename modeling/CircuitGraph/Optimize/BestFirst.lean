import CircuitGraph.Graph.Fingerprint
import CircuitGraph.Optimize.Run
import CircuitGraph.Sorting.Heap

/-
  Best first search from one level.

  Graphs wait in a heap, ordered by their costs and then by
  their discovery.
-/

---- Frontiers ----

namespace CircuitGraph

/- A graph that was reached, with its cost and the steps that lead to it. -/
structure Candidate (K : Type) where
  cost : K
  number : Nat
  graph : Graph K
  history : List Step

def Candidate.before {K : Type} [Scalar K] (c d : Candidate K) : Bool :=
  decide (c.cost < d.cost)
    || (!decide (d.cost < c.cost) && Scalar.isOrdered c.cost && Scalar.isOrdered d.cost
      && c.number < d.number)

/-
  What a search knows: the graphs waiting, the fingerprints
  seen, the number of graphs found, and the cheapest graph if
  it is not the start.
-/
structure Frontier (K : Type) where
  queue : Array (Candidate K)
  seen : List String
  found : Nat
  best : Option (Candidate K)
  bestCost : K

namespace Frontier

variable {K : Type} [Scalar K]

def add (f : Frontier K) (print : String) (cost : K) (g : Graph K) (history : List Step) :
    Frontier K :=
  let c : Candidate K := ⟨cost, f.found, g, history⟩
  let better := decide (cost < f.bestCost)
  { queue := Heap.push Candidate.before f.queue c
    seen := print :: f.seen
    found := f.found + 1
    best := if better then some c else f.best
    bestCost := if better then cost else f.bestCost }

def start (g : Graph K) (cost : K) (print : String) : Frontier K :=
  ⟨#[⟨cost, 0, g, []⟩], [print], 1, none, cost⟩

end Frontier

---- Expansion ----

namespace BestFirst

variable {K : Type} [Scalar K]

def follow (t : Task K) (path : List Nat) (c : Candidate K) (f : Frontier K) (m : Match) :
    Search K (Frontier K) := do
  match ← Search.applyTo t c.graph m with
  | none => return f
  | some (step, g) =>
    let print ← Search.ofExcept g.fingerprint
    if f.seen.contains print then
      return f
    let cost ← Search.score t path g
    return f.add print cost g (c.history ++ [{ step with path := path }])

def truncate (t : Task K) (f : Frontier K) : Search K (Frontier K) := do
  if t.settings.queueCapacity.all (fun capacity => f.queue.size < capacity) then
    return f
  match t.settings.queueKept with
  | none => throw .wrongType
  | some size =>
    let kept := Heap.smallest Candidate.before size f.queue.toList
    Search.note (.queueTruncated kept.length)
    return { f with queue := Heap.ofArray Candidate.before kept.toArray }

def expand (t : Task K) (path : List Nat) (c : Candidate K) (f : Frontier K) :
    Search K (Frontier K) := do
  modify (fun r => { r with iterations := r.iterations + 1 })
  let (found, g) ← Search.findMatches t c.graph none
  if c.number = 0 then
    modify (fun r => { r with level := g })
  let f ← found.foldlM (follow t path { c with graph := g }) f
  let f ← truncate t f
  Search.measure t g c.history.length
  return f

---- The Loop ----

/- Expands the cheapest candidates until the queue is empty or the budget is spent. -/
def loop (t : Task K) (path : List Nat) : Nat → Frontier K → Search K (Status × Frontier K)
  | 0, _ => throw .outOfFuel
  | fuel + 1, f =>
    match Heap.pop? Candidate.before f.queue with
    | none => return (.exhausted, f)
    | some (c, queue) => do
      match ← Search.exceeded t with
      | some stop => return (stop, f)
      | none => loop t path fuel (← expand t path c { f with queue := queue })

/- Searches from the level and puts the cheapest graph seen in its place. -/
def optimize (t : Task K) (fuel : Nat) (path : List Nat) : Search K Status := do
  let g := (← get).level
  let cost ← Search.score t path g
  let print ← Search.ofExcept g.fingerprint
  let (status, f) ← loop t path fuel (.start g cost print)
  match f.best with
  | some c => modify (fun r => { r with level := r.level.takeOver c.graph, log := r.log ++ c.history })
  | none => pure ()
  Search.note (.searchDone path (← get).iterations f.seen.length cost f.bestCost)
  return status

end BestFirst

end CircuitGraph
