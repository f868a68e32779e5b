import CircuitGraph.Event

/-
  The state of an optimisation.

  An optimisation works on one graph of the hierarchy at a
  time, its level; the root is the graph around it.
-/

---- Tasks and Runs ----

namespace CircuitGraph

/- What stays the same during an optimisation. -/
structure Task (K : Type) where
  rules : RuleSet K
  cost : Cost K
  gains : List K
  settings : Settings K
  clock : Nat → Float

/- What changes during an optimisation. -/
structure Run (K : Type) where
  root : Graph K
  level : Graph K
  iterations : Nat
  readings : Nat
  log : List Step
  metrics : List (Metrics K)
  events : List (Event K)

/- A part of an optimisation: it may fail, and what was done before stays done. -/
abbrev Search (K : Type) (α : Type) : Type :=
  ExceptT Fault (StateM (Run K)) α

namespace Run

variable {K : Type}

def start (g : Graph K) : Run K :=
  ⟨g, g, 0, 0, [], [], []⟩

end Run

namespace Search

variable {K : Type} {α : Type}

def ofExcept (r : Except Fault α) : Search K α :=
  match r with
  | .ok a => pure a
  | .error fault => throw fault

def note (e : Event K) : Search K Unit :=
  modify (fun r => { r with events := r.events ++ [e] })

def onLevel (e : Edit K α) : Search K α := do
  let (outcome, g) := e.runOn (← get).level
  modify (fun r => { r with level := g })
  ofExcept outcome

---- Budgets ----

variable {K : Type}

def elapsed (t : Task K) : Search K Float := do
  let r ← get
  set { r with readings := r.readings + 1 }
  return t.clock r.readings

def timeIsOver (t : Task K) : Search K Bool := do
  match t.settings.timeout with
  | none => return false
  | some limit => return decide (limit ≤ (← elapsed t))

def exceeded (t : Task K) : Search K (Option Status) := do
  let iterations := (← get).iterations
  if t.settings.maxIterations.any (fun limit => limit ≤ iterations) then
    return some .iterationBudget
  if ← timeIsOver t then
    return some .timeout
  return none

---- Costs and Measures ----

variable {K : Type} [Scalar K]

def score (t : Task K) (path : List Nat) (g : Graph K) : Search K K := do
  if path.isEmpty || t.cost.isLocal then
    ofExcept (t.cost.eval g)
  else
    ofExcept (t.cost.eval ((← get).root.replaceAt path g))

def measure (t : Task K) (g : Graph K) (steps : Nat) : Search K Unit := do
  if t.settings.verbosity ≠ 0 then
    let cost ← ofExcept (t.cost.eval g)
    let depth ← ofExcept g.depth
    modify (fun r =>
      { r with metrics := r.metrics ++ [⟨r.iterations, steps, cost, g.gateCount, depth⟩] })

---- Matching and Substituting ----

variable {K : Type} [Scalar K]

def findMatches (t : Task K) (g : Graph K) (among : Option (List Slot)) :
    Search K (List Match × Graph K) := do
  let (outcome, g') := (t.rules.findMatches among).runOn g
  let found ← ofExcept outcome
  note (.matched (t.rules.anchors g among).length found.length)
  return (found, g')

def findInLevel (t : Task K) (among : Option (List Slot)) : Search K (List Match) := do
  let (found, g) ← findMatches t (← get).level among
  modify (fun r => { r with level := g })
  return found

def applyTo (t : Task K) (g : Graph K) (m : Match) : Search K (Option (Step × Graph K)) := do
  let (outcome, g') := (t.rules.apply m).runOn g.copy
  match outcome with
  | .ok step =>
    note (.substituted step)
    return some (step, g')
  | .error (.stale ..) => return none
  | .error fault => throw fault

end Search

end CircuitGraph
