import CircuitGraph.Rule.Pattern

/-
  Many patterns in one trie.

  Every path from the root spells the beginning of some
  pattern's list of constraints, and no two branches of a
  state bear the same constraint.
-/

namespace CircuitGraph

/- A state: the rules that it accepts, and its branches in the order of their creation. -/
inductive Trie where
  | state (accepts : List Nat) (children : List (Constraint × Trie))
  deriving Repr, Inhabited

namespace Trie

def empty : Trie :=
  state [] []

def accepts : Trie → List Nat
  | state rules _ => rules

def children : Trie → List (Constraint × Trie)
  | state _ branches => branches

def insertRule (rank : Nat → Nat) (rule : Nat) : List Nat → List Nat
  | [] => [rule]
  | r :: rs => if rank rule < rank r then rule :: r :: rs else r :: insertRule rank rule rs

def alterBranch (c : Constraint) (change : Trie → Trie) :
    List (Constraint × Trie) → List (Constraint × Trie)
  | [] => [(c, change empty)]
  | (d, t) :: rest =>
    if c.same d then (d, change t) :: rest else (d, t) :: alterBranch c change rest

def insert (rank : Nat → Nat) (rule : Nat) : List Constraint → Trie → Trie
  | [], state rules branches => state (insertRule rank rule rules) branches
  | c :: cs, state rules branches =>
    state rules (alterBranch c (insert rank rule cs) branches)

/- How many states are still to be made on the way that a list of constraints spells. -/
def missing : List Constraint → Trie → Nat
  | [], _ => 0
  | c :: cs, state _ branches =>
    match branches.find? (fun b => c.same b.1) with
    | some (_, t) => missing cs t
    | none => missing cs empty + 1

mutual

def size : Trie → Nat
  | state _ branches => 1 + sizeAll branches

def sizeAll : List (Constraint × Trie) → Nat
  | [] => 0
  | (_, t) :: rest => size t + sizeAll rest

end

end Trie

end CircuitGraph
