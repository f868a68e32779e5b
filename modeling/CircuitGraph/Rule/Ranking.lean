import CircuitGraph.Sorting.Arrange
import CircuitGraph.Value.Order

/-
  Ranks of rules.

  Rules are ranked by descending priority and then by the
  order in which they were given.
-/

---- Ranks ----

namespace CircuitGraph

namespace Ranking

def outranks (a b : Value × Nat) : Bool :=
  b.1.less a.1 || (a.1.agrees b.1 && a.2 < b.2)

def arranged (rules : List (Value × Nat)) : List (Value × Nat) :=
  if rules.any (fun rule => rule.1.isUndefined) then Sorting.arrange outranks rules
  else rules.mergeSort (fun a b => !outranks b a)

def order (priorities : List Value) : List Nat :=
  (arranged priorities.zipIdx).map Prod.snd

def ranks (priorities : List Value) : List Nat :=
  let numbers := order priorities
  (List.range priorities.length).map (fun i => numbers.idxOf i)

end Ranking

end CircuitGraph
