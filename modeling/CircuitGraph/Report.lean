import CircuitGraph.Substitution.Commit

/-
  Reports on optimisations.

  A report has up to four parts: a summary, the measures taken
  after each iteration, how often each rule was applied, and
  all steps.
-/

---- Entries ----

namespace CircuitGraph

/- A line of the log of an optimisation. -/
structure Entry where
  rule : Value
  name : Value
  root : Value
  removed : List Value
  inserted : List Value
  path : List Value
  deriving Repr, Inhabited

namespace Entry

def ruleName (e : Entry) : Value :=
  e.name.orElse (.text e.rule.plain)

def text (e : Entry) : String :=
  let path := String.intercalate "/" (e.path.map Value.plain)
  let place := if path.isEmpty then "root" else path
  e.ruleName.plain ++ " @ " ++ place ++ ":" ++ e.root.plain ++ " -"
    ++ bracketed (e.removed.map Value.describe) ++ " +"
    ++ bracketed (e.inserted.map Value.describe)

end Entry

namespace Step

def entry (s : Step) : Entry :=
  let values (ns : List Nat) : List Value := ns.map (fun n : Nat => .whole n)
  ⟨.whole s.rule, s.name, s.root.toValue, s.removed.map Slot.toValue, values s.inserted,
    values s.path⟩

def text (s : Step) : String :=
  s.entry.text

end Step

---- Reports ----

/- The measures taken after one iteration. -/
structure Metrics (K : Type) where
  iteration : Nat
  steps : Nat
  cost : K
  gates : Nat
  depth : Nat
  deriving Repr, Inhabited

/- A row of the table of iterations. -/
structure Row (K : Type) where
  iteration : Value
  steps : Value
  cost : K
  gates : Value
  depth : Value
  deriving Repr, Inhabited

def Metrics.row {K : Type} (m : Metrics K) : Row K :=
  ⟨.whole m.iteration, .whole m.steps, m.cost, .whole m.gates, .whole m.depth⟩

/- What an optimisation did. -/
structure Report (K : Type) where
  mode : Value
  cost : Value
  ruleCount : Value
  status : Value
  initialCost : K
  finalCost : K
  initialGates : Value
  finalGates : Value
  elapsed : Float
  rows : List (Row K)
  log : List Entry
  verified : Option Bool
  deriving Repr, Inhabited

---- Parts of a Report ----

def Value.columnText : Value → Except Fault String
  | text s => .ok s
  | truth b => .ok (Nat.repr b.toNat)
  | whole i => .ok (signed i)
  | decimal x => .ok (Layout.value.write x)
  | _ => .error .wrongType

namespace Report

def costText (x : Float) : String :=
  Decimal.general 6 x

def progressText (r : Report Float) : String :=
  r.status.plain ++ " after " ++ Nat.repr r.rows.length ++ " iterations, "
    ++ Nat.repr r.log.length ++ " rewrites (" ++ Decimal.fixed 3 r.elapsed ++ "s)"

def summary (r : Report Float) : List String :=
  let rule := String.ofList (List.replicate 40 '=')
  let verified :=
    match r.verified with
    | some holds => ["  Verify: " ++ (if holds then "ok" else "FAILED")]
    | none => []
  [rule, "  TinyRewrite Optimisation Report", rule, "", "SUMMARY",
    "  Mode:   " ++ r.mode.plain ++ " (" ++ r.ruleCount.plain ++ " rules, cost=" ++ r.cost.plain
      ++ ")",
    "  Cost:   " ++ costText r.initialCost ++ " -> " ++ costText r.finalCost,
    "  Gates:  " ++ r.initialGates.plain ++ " -> " ++ r.finalGates.plain,
    "  Status: " ++ r.progressText] ++ verified

def rowLine (m : Row Float) : Except Fault String := do
  return "  " ++ padLeft 4 (← m.iteration.columnText) ++ " " ++ padLeft 9 (← m.steps.columnText)
    ++ " " ++ padLeft 9 (costText m.cost) ++ " " ++ padLeft 6 (← m.gates.columnText) ++ " "
    ++ padLeft 6 (← m.depth.columnText)

def iterations (r : Report Float) : Except Fault (List String) := do
  let lines ← r.rows.mapM rowLine
  return ["", "ITERATIONS", "  Iter  Rewrites      Cost  Gates  Depth",
    "  " ++ String.ofList (List.replicate 37 '-')] ++ lines

/- How often each name occurs, in the order of their first occurrences. -/
def countNames : List Value → List (Value × Nat)
  | [] => []
  | name :: names =>
    let rest := countNames names
    let others := rest.filter (fun entry => !entry.1.isSameKey name)
    let again := (rest.find? (fun entry => entry.1.isSameKey name)).map Prod.snd
    (name, again.getD 0 + 1) :: others

def isSortable (counts : List (Value × Nat)) : Bool :=
  counts.all (fun a => counts.all (fun b => a.2 != b.2 || a.1.isComparable b.1))

/-
  How often each rule was applied: the most frequent first,
  then by name.
-/
def ruleCounts (log : List Entry) : Except Fault (List (Value × Nat)) := do
  let names := log.map Entry.ruleName
  let counts := countNames names
  if !names.all Value.isScalar || !isSortable counts then
    throw .wrongType
  return Sorting.arrange (fun a b => b.2 < a.2 || (a.2 == b.2 && a.1.precedes b.1)) counts

def ruleLine (entry : Value × Nat) : Except Fault String := do
  return "  " ++ padRight 24 (← entry.1.columnText) ++ " x" ++ Nat.repr entry.2

def rules (r : Report Float) : Except Fault (List String) := do
  if r.log.isEmpty then
    return []
  let lines ← (← ruleCounts r.log).mapM ruleLine
  return ["", "RULES"] ++ lines

def steps (r : Report Float) : List String :=
  if r.log.isEmpty then []
  else ["", "REWRITES"] ++ r.log.map (fun s => "  " ++ s.text)

def text (r : Report Float) (verbosity : Nat) : Except Fault String := do
  let tables ← if verbosity < 2 then pure [] else pure ((← r.iterations) ++ (← r.rules))
  let steps := if verbosity < 3 then [] else r.steps
  return String.intercalate "\n" (r.summary ++ tables ++ steps)

end Report

end CircuitGraph
