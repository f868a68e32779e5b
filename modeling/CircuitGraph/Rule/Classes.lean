import CircuitGraph.Event

/-
  Rules from classes of equivalent graphs.

  Every member of a class may be replaced by the cheapest one,
  the first of them if there are several.
-/

namespace CircuitGraph

/- A member of a class: a graph, or a circuit that stands for its graph. -/
inductive Member (K : Type) where
  | graph (g : Graph K)
  | circuit (c : Circuit)

namespace Member

variable {K : Type} [Scalar K]

def toGraph : Member K → Except Fault (Graph K)
  | graph g => .ok g
  | circuit c => Graph.ofCircuit c

end Member

namespace Noting

variable {K : Type} [Scalar K]

def cheapest (costs : List K) : Nat :=
  match costs.zipIdx with
  | [] => 0
  | first :: rest => (rest.foldl (fun best x => if x.1 < best.1 then x else best) first).2

def isPatternFault : Fault → Bool
  | .pattern .. | .illFormed .. | .disconnected .. => true
  | _ => false

def memberRule (rule : Rule K) : Noting K (Option (Rule K)) := do
  let checked : Except Fault Unit := do
    rule.check
    let _ ← Pattern.ofGraph rule.pattern
  match checked with
  | .ok _ => return some rule
  | .error fault =>
    if isPatternFault fault then
      note (.memberSkipped rule.name.plain fault)
      return none
    else
      throw fault

def memberName (number member representative : Nat) : String :=
  "class" ++ Nat.repr number ++ "[" ++ Nat.repr member ++ "]->[" ++ Nat.repr representative ++ "]"

def classRules (cost : Cost K) (priority : Value) (number : Nat) (members : List (Member K)) :
    Noting K (List (Rule K)) := do
  let graphs ← ofExcept (members.mapM Member.toGraph)
  let costs ← ofExcept (graphs.mapM cost.eval)
  let chosen := cheapest costs
  match graphs[chosen]? with
  | none => return []
  | some target =>
    let others := graphs.zipIdx.filter (fun entry => entry.2 != chosen)
    let rules ← others.mapM (fun (g, i) =>
      memberRule ⟨g, target.copy, priority, .text (memberName number i chosen)⟩)
    return rules.filterMap id

def rulesOfClasses (classes : List (List (Member K))) (choice : CostChoice K) (priority : Value) :
    Noting K (List (Rule K)) := do
  let cost ← ofExcept choice.resolve
  let rules ← classes.zipIdx.mapM (fun (members, k) => classRules cost priority k members)
  let all := rules.flatten
  note (.rulesGenerated all.length)
  return all

end Noting

end CircuitGraph
