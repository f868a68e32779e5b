import CircuitGraph.Graph.Copy
import CircuitGraph.Graph.Measure
import CircuitGraph.Rule.Basic

/-
  Costs of graphs.

  A local cost is the sum of the costs of all operations, so
  that a rule saves the same wherever it is applied.
-/

---- Costs ----

namespace CircuitGraph

/- A cost, with its name and the text that describes it. -/
inductive Cost (K : Type) where
  | perNode (name label : String) (weight : Kind → List Param → Except Fault K)
  | whole (name : Value) (label : String) (value : Graph K → Except Fault K)

namespace Cost

variable {K : Type}

def name : Cost K → Value
  | perNode name _ _ => .text name
  | whole name _ _ => name

def label : Cost K → String
  | perNode _ label _ => label
  | whole _ label _ => label

def isLocal : Cost K → Bool
  | perNode .. => true
  | whole .. => false

variable [Scalar K]

def sumOver (weight : Kind → List Param → Except Fault K) (g : Graph K) : Except Fault K :=
  g.foldWith (.error .tooDeep) (fun g bodies =>
    g.sortedOps.foldlM (fun total node => do
      let part ← (Graph.valueOf? bodies node.id).getD (weight node.kind node.params)
      return total + part) ((0 : Nat) : K))

def eval (cost : Cost K) (g : Graph K) : Except Fault K :=
  match cost with
  | perNode _ _ weight => sumOver weight g
  | whole _ _ value => value g

def gain (cost : Cost K) (rule : Rule K) : Except Fault K := do
  let before ← cost.eval rule.pattern
  let after ← cost.eval rule.replacement
  return before - after

---- The Costs of the Library ----

variable {K : Type} [Scalar K]

def unit (counts : Bool) : K :=
  if counts then ((1 : Nat) : K) else ((0 : Nat) : K)

def gates : Cost K :=
  .perNode "gates" "GateCount()" (fun kind _ => .ok (unit kind.isGate))

def twoQubit : Cost K :=
  .perNode "two_qubit" "TwoQubitCount()" (fun kind _ => .ok (unit (2 ≤ kind.qubits)))

def kindWeight (one two three : Except Fault K) (kind : Kind) : Except Fault K :=
  if kind.isGate then
    match kind.qubits with
    | 1 => one
    | 2 => two
    | 3 => three
    | _ => .ok ((0 : Nat) : K)
  else .ok ((0 : Nat) : K)

def weightedLabel (one two three : String) : String :=
  "WeightedCost(one_q=" ++ one ++ ", two_q=" ++ two ++ ", three_q=" ++ three ++ ")"

def weighted (label : String) (one two three : K) : Cost K :=
  .perNode "weighted" label (fun kind _ => kindWeight (.ok one) (.ok two) (.ok three) kind)

def depth : Cost K :=
  .whole (.text "depth") "Depth()" (fun g => do return ((← g.depth : Nat) : K))

def ofFunction (name : Value) (value : Graph K → Except Fault K) : Cost K :=
  .whole name ("CallableCost(" ++ name.plain ++ ")") value

def undefined : Cost K :=
  .perNode "cost" "CostFunction()" (fun _ _ => .error .unimplemented)

end Cost

---- Weights Given as Values ----

namespace Value

def isNegative : Value → Bool
  | whole i => i < 0
  | decimal x => x < 0.0
  | _ => false

end Value

namespace Cost

/- The weights of gates on one, two and three qubits. -/
structure Weights where
  one : Value
  two : Value
  three : Value

namespace Weights

def standard : Weights :=
  ⟨.decimal 1.0, .decimal 10.0, .decimal 30.0⟩

def set (w : Weights) (entry : String × Value) : Except Fault Weights :=
  match entry.1 with
  | "one_q" => .ok { w with one := entry.2 }
  | "two_q" => .ok { w with two := entry.2 }
  | "three_q" => .ok { w with three := entry.2 }
  | _ => .error .wrongType

/-
  Checks weights: all are numbers, and the least of them is
  not negative.  If the first one is undefined there is no
  least weight, and nothing is refused.
-/
def check (w : Weights) : Except Fault Unit :=
  let all := [w.one, w.two, w.three]
  if !all.all Value.isNumeric then .error .wrongType
  else if !w.one.isUndefined && all.any Value.isNegative then .error (.argument .negativeWeight)
  else .ok ()

def cost (w : Weights) : Cost Float :=
  .perNode "weighted" (weightedLabel w.one.describe w.two.describe w.three.describe)
    (fun kind _ => kindWeight w.one.toFloat w.two.toFloat w.three.toFloat kind)

def ofFields (fields : List (String × Value)) : Except Fault (Cost Float) := do
  let w ← fields.foldlM set standard
  w.check
  return w.cost

end Weights

end Cost

---- Choosing a Cost ----

/- A cost as it is asked for: by default, by name, by itself, or by something unusable. -/
inductive CostChoice (K : Type) where
  | standard
  | named (name : String)
  | given (cost : Cost K)
  | unusable

namespace CostChoice

variable {K : Type} [Scalar K]

def known : List (Cost K) :=
  [.depth, .gates, .twoQubit,
    .weighted (Cost.weightedLabel "1.0" "10.0" "30.0")
      ((1 : Nat) : K) ((10 : Nat) : K) ((30 : Nat) : K)]

def resolve : CostChoice K → Except Fault (Cost K)
  | standard => .ok .gates
  | named name =>
    match known.find? (fun cost : Cost K => cost.name.plain == name) with
    | some cost => .ok cost
    | none =>
      let names := (known : List (Cost K)).map (fun cost => cost.name.plain)
      .error (.argument (.unknownCost name names))
  | given cost => .ok cost
  | unusable => .error .wrongType

end CostChoice

end CircuitGraph
