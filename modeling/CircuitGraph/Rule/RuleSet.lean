import CircuitGraph.Rule.Basic
import CircuitGraph.Rule.Ranking
import CircuitGraph.Rule.Trie

/-
  Compiled sets of rules.

  All patterns of a set share one trie, and its rules are
  ranked by their priorities.
-/

---- Rule Sets ----

namespace CircuitGraph

/- Rules with their patterns, their ranks, and the trie of all patterns with the number of states. -/
structure RuleSet (K : Type) where
  rules : List (Rule K)
  patterns : List Pattern
  ranks : List Nat
  trie : Trie
  states : Nat

namespace RuleSet

variable {K : Type}

def rankOf (ranks : List Nat) (rule : Nat) : Nat :=
  ranks[rule]?.getD ranks.length

/- Adds a pattern to a trie, and counts the states that are made for it. -/
def addPattern (ranks : List Nat) (built : Trie × Nat) (entry : Pattern × Nat) : Trie × Nat :=
  (built.1.insert (rankOf ranks) entry.2 entry.1.constraints,
    built.2 + built.1.missing entry.1.constraints)

def buildTrie (ranks : List Nat) (patterns : List Pattern) : Trie × Nat :=
  patterns.zipIdx.foldl (addPattern ranks) (.empty, 1)

def compile (rules : List (Rule K)) : Except Fault (RuleSet K) := do
  rules.forM Rule.check
  let patterns ← rules.mapM (fun rule => Pattern.ofGraph rule.pattern)
  if !rules.all (fun rule => rule.priority.isNumeric) then
    throw .wrongType
  let ranks := Ranking.ranks (rules.map Rule.priority)
  let (trie, states) := buildTrie ranks patterns
  return ⟨rules, patterns, ranks, trie, states⟩

def rule (rs : RuleSet K) (i : Nat) : Except Fault (Rule K) :=
  match rs.rules[i]? with
  | some rule => .ok rule
  | none => .error .outOfBounds

def pattern (rs : RuleSet K) (i : Nat) : Except Fault Pattern :=
  match rs.patterns[i]? with
  | some p => .ok p
  | none => .error .outOfBounds

def radius (rs : RuleSet K) : Nat :=
  (rs.patterns.map Pattern.size).foldl max 0

def rootKinds (rs : RuleSet K) : List Kind :=
  (rs.trie.children.filterMap (fun branch => branch.1.rootKind?)).eraseDups

def naiveSize (rs : RuleSet K) : Nat :=
  rs.patterns.foldl (fun total p => total + p.constraints.length) 1

def text (rs : RuleSet K) : String :=
  "RuleSet(" ++ Nat.repr rs.rules.length ++ " rules, " ++ Nat.repr rs.states ++ " states)"

def setReplacement (rs : RuleSet K) (i : Int) (g : Graph K) : Except Fault (RuleSet K) :=
  match placeIn? rs.rules.length i with
  | some n => .ok { rs with rules := rs.rules.modify n (fun rule => { rule with replacement := g }) }
  | none => .error .outOfBounds

end RuleSet

end CircuitGraph
