import CircuitGraph.Cost

/-
  Settings of an optimisation.

  Settings are drafted by name from plain values and then
  checked as a whole; the checks are made in a fixed order,
  and the first that fails decides.
-/

---- Settings ----

namespace CircuitGraph

/- How graphs are searched: improving batches, or best first within a budget. -/
inductive Mode where
  | greedy
  | bounded
  deriving DecidableEq, Repr, Inhabited

namespace Mode

def name : Mode → String
  | greedy => "greedy"
  | bounded => "bounded"

end Mode

/-
  Settings that have passed the checks:
    * `maxIterations`, `timeout`: when to stop early,
    * `incremental`: look for new matches near changes only,
    * `recurse`: optimise nested graphs too,
    * `queueCapacity`: the size at which the queue of the best
      first search is cut down, if there is one,
    * `queueKept`: the size that it is cut down to, if it can
      be cut down,
    * `verify`: compare the result with the start,
    * `verbosity`: how much is reported.
-/
structure Settings (K : Type) where
  cost : CostChoice K
  mode : Mode
  maxIterations : Option Nat
  timeout : Option Float
  incremental : Bool
  recurse : Bool
  queueCapacity : Option Nat
  queueKept : Option Nat
  verify : Bool
  verbosity : Nat

---- Drafts ----

namespace Value

/-
  How many parts of a report a number asks for: all three from
  three on, and one below two.
-/
def detail (v : Value) : Except Fault Nat := do
  if ← v.isBelow 2 then
    return 1
  return if (← v.isBelow 3) || v.isUndefined then 2 else 3

def reportLevel (v : Value) : Except Fault Nat := do
  if ← v.isAbove 0 then v.detail else return 0

/-
  Half of a number, rounded down, as the size of a list; of
  the halves of decimals only one can be a size.
-/
def halfSize? : Value → Option Nat
  | whole i => some (i / 2).toNat
  | truth b => some (b.toNat / 2)
  | v =>
    match v.quotient? with
    | some (n, d) => if n / (2 * (d : Int)) = 1 then some 1 else none
    | none => none

/- The double that a number of seconds stands for; there is always one that is as late. -/
def seconds (v : Value) : Except Fault Float :=
  match v.toFloat with
  | .error .overflow => .ok (if v.less (whole 0) then -(1.0 / 0.0) else 1.0 / 0.0)
  | other => other

end Value

/- Settings as they are asked for. -/
structure Draft (K : Type) where
  cost : CostChoice K
  mode : Value
  maxIterations : Value
  timeout : Value
  threads : Value
  incremental : Value
  recurse : Value
  queueCapacity : Value
  verify : Value
  verbosity : Value

namespace Draft

variable {K : Type}

def standard : Draft K where
  cost := .named "gates"
  mode := .text "greedy"
  maxIterations := .null
  timeout := .null
  threads := .whole 1
  incremental := .truth true
  recurse := .truth true
  queueCapacity := .whole 10000
  verify := .truth false
  verbosity := .whole 0

def set (d : Draft K) (entry : Value × Value) : Except Fault (Draft K) :=
  match entry.1 with
  | .text "mode" => .ok { d with mode := entry.2 }
  | .text "max_iterations" => .ok { d with maxIterations := entry.2 }
  | .text "timeout" => .ok { d with timeout := entry.2 }
  | .text "n_threads" => .ok { d with threads := entry.2 }
  | .text "incremental" => .ok { d with incremental := entry.2 }
  | .text "recurse" => .ok { d with recurse := entry.2 }
  | .text "queue_capacity" => .ok { d with queueCapacity := entry.2 }
  | .text "verify" => .ok { d with verify := entry.2 }
  | .text "verbosity" => .ok { d with verbosity := entry.2 }
  | _ => .error .wrongType

def update (d : Draft K) (cost : Option (CostChoice K)) (entries : List (Value × Value)) :
    Except Fault (Draft K) :=
  entries.foldlM set { d with cost := cost.getD d.cost }

def fields (d : Draft K) : List (String × Value) :=
  [("mode", d.mode), ("max_iterations", d.maxIterations), ("timeout", d.timeout),
    ("n_threads", d.threads), ("incremental", d.incremental), ("recurse", d.recurse),
    ("queue_capacity", d.queueCapacity), ("verify", d.verify), ("verbosity", d.verbosity)]

def readMode (d : Draft K) : Except Fault Mode :=
  match d.mode with
  | .text "greedy" => .ok .greedy
  | .text "bounded" => .ok .bounded
  | v => .error (.argument (.unknownMode v.describe))

def refuseIf (refused : Except Fault Bool) (fault : ArgumentFault) : Except Fault Unit := do
  if ← refused then
    throw (.argument fault)

def check (d : Draft K) : Except Fault (Settings K) := do
  let mode ← d.readMode
  if mode = .bounded && !d.maxIterations.isPresent && !d.timeout.isPresent then
    throw (.argument .unboundedSearch)
  if d.maxIterations.isPresent then
    refuseIf (d.maxIterations.isBelow 0) .iterationLimit
  if d.timeout.isPresent then
    refuseIf (d.timeout.isAtMost 0) .timeLimit
  refuseIf (d.threads.isBelow 1) .threadCount
  refuseIf (d.queueCapacity.isBelow 2) .queueLimit
  let negative ← d.verbosity.isBelow 0
  let allowed ← d.verbosity.isAtMost 3
  if negative || !allowed then
    throw (.argument .verbosityRange)
  let timeout ←
    if d.timeout.isPresent then do
      let seconds ← d.timeout.seconds
      pure (some seconds)
    else pure none
  let maxIterations ←
    if d.maxIterations.isPresent then d.maxIterations.reach else pure none
  return {
    cost := d.cost
    mode := mode
    maxIterations := maxIterations
    timeout := timeout
    incremental := d.incremental.affirms
    recurse := d.recurse.affirms
    queueCapacity := ← d.queueCapacity.reach
    queueKept := d.queueCapacity.halfSize?
    verify := d.verify.affirms
    verbosity := ← d.verbosity.reportLevel }

end Draft

end CircuitGraph
