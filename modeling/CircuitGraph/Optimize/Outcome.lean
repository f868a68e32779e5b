import CircuitGraph.Optimize.BestFirst
import CircuitGraph.Optimize.Greedy
import CircuitGraph.Simulator.Equality

/-
  Optimisation of a graph.

  A copy of the graph is optimised, nested graphs first and
  the deepest of them before all others; the graph itself is
  not changed.
-/

---- Outcomes ----

namespace CircuitGraph

/- Why the result of an optimisation should be looked at. -/
inductive Warning where
  | unchecked (cause : ArgumentFault)
  | notEquivalent
  deriving Repr, Inhabited

namespace Warning

def message : Warning → String
  | unchecked cause => "Equivalence check skipped: " ++ cause.message
  | notEquivalent => "Optimised graph failed equivalence check"

end Warning

structure Outcome (K : Type) where
  graph : Graph K
  log : List Step
  status : Status
  initialCost : K
  finalCost : K
  iterations : Nat
  verified : Option Bool
  warnings : List Warning
  report : Report K

namespace Outcome

def printed (o : Outcome Float) (verbosity : Nat) : Except Fault String := do
  if verbosity = 0 then return ""
  return (← o.report.text verbosity) ++ "\n"

end Outcome

---- Levels ----

namespace Search

variable {K : Type} [Scalar K]

def levelPaths (recurse : Bool) (g : Graph K) : List (List Nat) :=
  if recurse then
    (g.walk.map Prod.fst).mergeSort (fun a b => b.length ≤ a.length)
  else [[]]

def enter (path : List Nat) : Search K Unit :=
  modify (fun r => { r with level := (r.root.bodyAt? path).getD r.root })

def leave (path : List Nat) : Search K Unit :=
  modify (fun r => { r with root := r.root.replaceAt path r.level })

def runLevel (t : Task K) (fuel : Nat) (path : List Nat) : Search K (Option Status) := do
  match t.settings.mode with
  | .greedy => Greedy.optimize t fuel path
  | .bounded =>
    let status ← BestFirst.optimize t fuel path
    return if status = .exhausted then none else some status

def runLevels (t : Task K) (fuel : Nat) : List (List Nat) → Search K (Option Status)
  | [] => return none
  | path :: paths => do
    enter path
    let stop ← runLevel t fuel path
    leave path
    match stop with
    | some status =>
      note (.stopped status (← get).iterations)
      return some status
    | none => runLevels t fuel paths

end Search

---- Optimisation ----

variable {K : Type} [Scalar K]

def Mode.finalStatus : Mode → Status
  | .greedy => .fixpoint
  | .bounded => .exhausted

def verifyResult (wanted : Bool) (g result : Graph K) : Except Fault (Option Bool × List Warning) :=
  if wanted then
    match g.isEquivalent result standardTolerance with
    | .ok true => .ok (some true, [])
    | .ok false => .ok (some false, [.notEquivalent])
    | .error (.argument cause) => .ok (none, [.unchecked cause])
    | .error fault => .error fault
  else .ok (none, [])

def ruleGains (cost : Cost K) (rs : RuleSet K) : Except Fault (List K) :=
  if cost.isLocal then rs.rules.mapM cost.gain else .ok []

def runSearch {α : Type} (s : Search K α) (start : Run K) : Noting K (α × Run K) := do
  let (outcome, run) := (ExceptT.run s).run start
  modify (fun events => events ++ run.events)
  let result ← Noting.ofExcept outcome
  return (result, run)

/-
  Optimises a graph with a set of rules.  `fuel` bounds the
  number of rounds at each level, and `clock` gives the time
  passed at each reading.
-/
def optimize (fuel : Nat) (clock : Nat → Float) (rs : RuleSet K) (settings : Settings K)
    (g : Graph K) : Noting K (Outcome K) := do
  let cost ← Noting.ofExcept settings.cost.resolve
  let work := g.copy
  let gains ← Noting.ofExcept (ruleGains cost rs)
  let initialCost ← Noting.ofExcept (cost.eval work)
  Noting.note (.started work.ops.length rs.rules.length settings.mode cost.name.plain initialCost)
  let t : Task K := ⟨rs, cost, gains, settings, clock⟩
  let (stop, run) ← runSearch (Search.runLevels t fuel (Search.levelPaths settings.recurse work))
    (Run.start work)
  let result := run.root
  let status := stop.getD settings.mode.finalStatus
  let finalCost ← Noting.ofExcept (cost.eval result)
  let (verified, warnings) ← Noting.ofExcept (verifyResult settings.verify g result)
  Noting.note (.finished status run.log.length initialCost finalCost)
  let report : Report K :=
    ⟨.text settings.mode.name, cost.name, .whole rs.rules.length, .text status.text, initialCost,
      finalCost, .whole work.gateCount, .whole result.gateCount, clock run.readings,
      run.metrics.map Metrics.row, run.log.map Step.entry, verified⟩
  return ⟨result, run.log, status, initialCost, finalCost, run.iterations, verified, warnings,
    report⟩

end CircuitGraph
