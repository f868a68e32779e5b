import CircuitGraph.Optimize.Settings
import CircuitGraph.Report

/-
  What is noted down along the way.

  Events are noted in the order in which they happen.  They do
  not influence any result.
-/

namespace CircuitGraph

/- Why an optimisation ended. -/
inductive Status where
  | fixpoint
  | iterationBudget
  | timeout
  | exhausted
  deriving DecidableEq, Repr, Inhabited

namespace Status

def text : Status → String
  | fixpoint => "fixpoint"
  | iterationBudget => "iteration_budget"
  | timeout => "timeout"
  | exhausted => "exhausted"

end Status

inductive Event (K : Type) where
  | compiled (rules states naive : Nat)
  | matched (anchors found : Nat)
  | planMoved (found : Match)
  | substituted (step : Step)
  | staleDropped (found : Match)
  | batchDone (number : Nat) (path : List Nat) (steps : Nat)
  | queueTruncated (size : Nat)
  | searchDone (path : List Nat) (expansions seen : Nat) (start best : K)
  | started (ops rules : Nat) (mode : Mode) (cost : String) (initial : K)
  | stopped (status : Status) (iterations : Nat)
  | finished (status : Status) (steps : Nat) (initial final : K)
  | memberSkipped (rule : String) (cause : Fault)
  | rulesGenerated (count : Nat)

namespace Event

def pathText (path : List Nat) : String :=
  if path.isEmpty then "root" else tupled (path.map Nat.repr)

def message : Event Float → String
  | compiled rules states naive =>
    "compiled " ++ Nat.repr rules ++ " rules into " ++ Nat.repr states ++ " states (naive "
      ++ Nat.repr naive ++ ")"
  | matched anchors found =>
    "matched " ++ Nat.repr anchors ++ " anchors -> " ++ Nat.repr found ++ " matches"
  | planMoved found => "boundary of " ++ found.text ++ " moved since planning, re-planned"
  | substituted step => "rewrite " ++ step.text
  | staleDropped found => "dropping stale match " ++ found.text
  | batchDone number path steps =>
    "batch " ++ Nat.repr number ++ " at " ++ pathText path ++ ": " ++ Nat.repr steps
      ++ " rewrites"
  | queueTruncated size => "queue truncated to " ++ Nat.repr size
  | searchDone path expansions seen start best =>
    "best-first at " ++ pathText path ++ ": " ++ Nat.repr expansions ++ " expansions, "
      ++ Nat.repr seen ++ " seen, cost " ++ Report.costText start ++ " -> "
      ++ Report.costText best
  | started ops rules mode cost initial =>
    "optimize: " ++ Nat.repr ops ++ " ops, " ++ Nat.repr rules ++ " rules, mode=" ++ mode.name
      ++ ", cost=" ++ cost ++ " (" ++ Report.costText initial ++ ")"
  | stopped status iterations =>
    "optimize stopped (" ++ status.text ++ ") after " ++ Nat.repr iterations ++ " iterations"
  | finished status steps initial final =>
    "optimize: " ++ status.text ++ ", " ++ Nat.repr steps ++ " rewrites, cost "
      ++ Report.costText initial ++ " -> " ++ Report.costText final
  | memberSkipped rule cause => "skipping " ++ rule ++ ": " ++ cause.message
  | rulesGenerated count =>
    "generated " ++ Nat.repr count ++ " rules from equivalence classes"

end Event

---- Noting Events ----

abbrev Noting (K : Type) (α : Type) : Type :=
  ExceptT Fault (StateM (List (Event K))) α

namespace Noting

variable {K : Type} {α : Type}

def runOn (c : Noting K α) (events : List (Event K)) : Except Fault α × List (Event K) :=
  (ExceptT.run c).run events

def ofExcept (r : Except Fault α) : Noting K α :=
  match r with
  | .ok a => pure a
  | .error fault => throw fault

def note (e : Event K) : Noting K Unit :=
  modify (fun events => events ++ [e])

def compile (entries : List (RuleEntry K)) : Noting K (RuleSet K) := do
  let rules ← ofExcept (entries.mapM RuleEntry.toRule)
  let rs ← ofExcept (RuleSet.compile rules)
  note (.compiled rs.rules.length rs.states rs.naiveSize)
  return rs

end Noting

end CircuitGraph
