import CircuitGraph.Workspace.Nesting

/-
  Matching and substituting in a workspace.

  A workspace has one set of rules in use, and it keeps the
  matches found last.
-/

---- Rules ----

namespace CircuitGraph

namespace Workspace

variable {K : Type} [Scalar K]

def compile (entries : List (RuleEntry K)) : Action K (RuleSet K) := do
  let rs ← noting (Noting.compile entries)
  modify (fun w => { w with rules := some rs })
  return rs

def rulesOr (fault : Fault) : Action K (RuleSet K) := do
  match (← get).rules with
  | some rs => return rs
  | none => throw fault

def ruleSet : Action K (RuleSet K) :=
  rulesOr .absent

def ruleList : Action K (RuleSet K) :=
  rulesOr .wrongType

/- Gives one of the rules in use another replacement; negative numbers count from the end. -/
def setReplacement (i : Value) (g : Graph K) : Action K Unit := do
  let rs ← ruleList
  let rs ← ofExcept (do rs.setReplacement (← i.position) g)
  modify (fun w => { w with rules := some rs })

---- Matches ----

def keep (found : List Match) : Action K Unit :=
  modify (fun w => { w with found := found })

def findAmong (name : Value) (among : Option (List Slot)) : Action K (List Match) := do
  let rs ← ruleSet
  let g ← graph name
  let found ← edit name (rs.findMatches among)
  note (.matched (rs.anchors g among).length found.length)
  keep found
  return found

def findNowhere (anchors threads : Value) : Action K (List Match) := do
  if !(← ofExcept anchors.items).isEmpty then
    throw .wrongType
  let _ ← ofExcept (threads.isAbove 1)
  note (.matched 0 0)
  keep []
  return []

/-
  Finds the matches in a named graph, all or those at the
  anchors that a caller lists.  The number of threads has to
  be a number, but it makes no difference.
-/
def find (name : Value) (anchors threads : Value) : Action K (List Match) := do
  let _ ← ruleSet
  let there := ((← get).graph? name).isSome
  if !anchors.isPresent then
    let _ ← graph name
    let _ ← ofExcept (threads.isAbove 1)
    findAmong name none
  else
    let slots ← ofExcept anchors.sortableSlots
    if there then
      let _ ← ofExcept (threads.isAbove 1)
      findAmong name (some slots)
    else
      findNowhere anchors threads

def findNear (name : Value) (touched : Value) : Action K (List Match) := do
  let rs ← ruleSet
  match (← get).graph? name with
  | none => findNowhere touched (.whole 1)
  | some g => findAmong name (some (g.neighbourhood (← ofExcept touched.slots) rs.radius))

def neighbourhood (name : Value) (nodes radius : Value) : Action K (List Slot) := do
  match (← get).graph? name with
  | some g => ofExcept (g.neighbourhoodOf nodes radius)
  | none => if (← ofExcept nodes.items).isEmpty then return [] else throw .wrongType

def findFirst (name : Value) : Action K (Option Match) := do
  let rs ← ruleSet
  let found ← edit name rs.findFirst
  keep found.toList
  return found

def foundMatch (i : Value) : Action K Match := do
  let found := (← get).found
  match (placeIn? found.length (← ofExcept i.position)).bind (fun n => found[n]?) with
  | some m => return m
  | none => throw .outOfBounds

def isLive (name : Value) (i : Value) : Action K Bool := do
  let m ← foundMatch i
  let _ ← graphOr .wrongType name
  edit name ((← ruleSet).isLive m)

---- Substitutions and Optimisation ----

def plan (name : Value) (i : Value) (planName : Value) : Action K Plan := do
  let m ← foundMatch i
  let p ← edit name ((← ruleSet).plan m)
  checkName planName
  modify (fun w => { w with plans := setEntry w.plans planName p })
  return p

def commitPlan (name : Value) (p : Plan) : Action K Step := do
  let rs ← ruleSet
  let (fresh, moved) ← edit name (rs.refresh p)
  if moved then
    note (.planMoved p.found)
  let step ← edit name (rs.carryOut fresh)
  note (.substituted step)
  return step

def commit (name planName : Value) : Action K Step := do
  checkName planName
  match entry? (← get).plans planName with
  | some p => commitPlan name p
  | none => throw (.unknownKey planName)

def apply (name : Value) (i : Value) : Action K Step := do
  let m ← foundMatch i
  let p ← edit name ((← ruleSet).plan m)
  commitPlan name p

def optimizeNamed (fuel : Nat) (clock : Nat → Float) (settings : Settings K) (name : Value) :
    Action K (Outcome K) := do
  let rs ← ruleList
  let _ ← ofExcept settings.cost.resolve
  let g ← finiteGraph name
  noting (CircuitGraph.optimize fuel clock rs settings g)

/-
  Optimises a named graph, writes what is to be printed about
  it, and only then gives a name to the result.
-/
def optimize (fuel : Nat) (clock : Nat → Float) (settings : Settings Float)
    (name newName : Value) : Action Float (Outcome Float × String) := do
  let outcome ← optimizeNamed fuel clock settings name
  let printed ← ofExcept (outcome.printed settings.verbosity)
  hold newName outcome.graph
  return (outcome, printed)

end Workspace

end CircuitGraph
