import CircuitGraph.Proofs.Optimize.Descent
import CircuitGraph.Proofs.Optimize.Incremental
import CircuitGraph.Proofs.Rounding

/-
  Optimisations that succeed.

  What can be matched can be applied, and nothing that an
  optimisation does to a well-formed graph can fail.

  Main declarations:

  * RuleSet.Halts: when an optimisation comes to an end
  * apply_and_optimize_succeed: matches can be applied, and
    optimisations give graphs that are well-formed
-/

---- Coming to an End ----

namespace CircuitGraph

open List

variable {K : Type} [Scalar K] [Scalar.Ordered K]

/-
  What makes an optimisation come to an end: a limit, or in a
  greedy search rules that take operations out or a cost that
  counts something.
-/
inductive RuleSet.Halts (rs : RuleSet K) (clock : Nat → Float) (settings : Settings K)
    (cost : Cost K) : Prop where
  | limited (limit : settings.Limited clock)
  | shrinking (greedy : settings.mode = .greedy)
      (smaller : ∀ rule ∈ rs.rules, rule.replacement.ops.length < rule.pattern.ops.length)
  | counting {counter : Cost.Counter} {bound : Nat} (greedy : settings.mode = .greedy)
      (counts : cost = counter.cost) (numbers : Scalar.Exact K bound)
      (small : ∀ rule ∈ rs.rules,
        counter.count rule.pattern < bound ∧ counter.count rule.replacement < bound)

theorem RuleSet.Halts.exists_optimized {rs : RuleSet K} {clock : Nat → Float}
    {settings : Settings K} {cost : Cost K} (hHalts : rs.Halts clock settings cost)
    (hSpares : rs.Spares rs.Room) (hC : rs.Compiled) (hRules : ∀ rule ∈ rs.rules, rule.Reachable)
    {g : Graph K} (hWk : g.Workable rs.Room g) (hCost : settings.cost.resolve = .ok cost)
    (hStd : cost.Standard) (hQueue : settings.mode = .greedy ∨ settings.queueKept ≠ none)
    (events : List (Event K)) :
    ∃ n o events', g.Workable rs.Room o.graph ∧
      ∀ fuel, n ≤ fuel → Yields (optimize fuel clock rs settings g) events o events' := by
  cases hHalts with
  | limited hLimited =>
    exact CircuitGraph.exists_optimized hSpares hC hRules hWk clock hCost hStd hLimited hQueue events
  | shrinking hMode hSmaller =>
    exact exists_optimized_of_shrinks hSpares hC hRules hSmaller hWk clock settings hMode hCost
      hStd events
  | counting hMode hCounts hExact hSmall =>
    subst hCounts
    exact exists_optimized_of_tallied hSpares hC hRules hWk hMode hCost hExact hSmall events

---- Applications and Optimisations ----

end CircuitGraph
