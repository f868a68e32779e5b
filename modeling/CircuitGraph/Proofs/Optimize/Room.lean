import CircuitGraph.Proofs.Reachable

/-
  Room for new ids.

  Ranks are numbers, and a type of numbers may count only so
  far.  How many ids substitutions can give out follows from
  how many there are, how many operations there are, and how
  many of them each rule takes and brings.

  Main declarations:

  * RuleSet.Room: whether all of these ids can be counted
  * RuleSet.Roomy: whether they can, at all levels of a graph
  * RuleSet.roomy_of_shrinks: a bound for rules that shrink
-/

---- Numbers of Ids ----

namespace CircuitGraph

namespace RuleSet

variable {K : Type} {rs : RuleSet K} {n k : Nat}

/- From the numbers of ids and operations to those after a substitution. -/
inductive Grows (rs : RuleSet K) : Nat × Nat → Nat × Nat → Prop where
  | step {rule : Rule K} (member : rule ∈ rs.rules) (n k : Nat) :
      Grows rs (n, k + rule.pattern.ops.length)
        (n + rule.replacement.ops.length, k + rule.replacement.ops.length)

variable [Scalar K]

/- Whether all ids can be counted that substitutions may give out. -/
def Room (rs : RuleSet K) (n k : Nat) : Prop :=
  ∀ m, Relation.ReflTransGen rs.Grows (n, k) m → Scalar.Counts K m.1

theorem Room.counts (hRoom : rs.Room n k) : Scalar.Counts K n :=
  hRoom (n, k) .refl

---- Rules That Keep Room ----

omit [Scalar K] in
/-
  A condition on the numbers of ids and operations of a level
  that substitutions keep, and that the graphs nested in the
  replacements fulfil.
-/
structure Spares (rs : RuleSet K) (room : Nat → Nat → Prop) : Prop where
  step : ∀ rule ∈ rs.rules, ∀ n k, room n (k + rule.pattern.ops.length) →
    room (n + rule.replacement.ops.length) (k + rule.replacement.ops.length)
  bodies : ∀ rule ∈ rs.rules, ∀ node ∈ rule.replacement.ops, ∀ body, node.body = some body →
    Graph.Everywhere (fun h => room h.nextId h.ops.length) body

omit [Scalar K] in
theorem spares_always (rs : RuleSet K) : rs.Spares (fun _ _ => True) where
  step _ _ _ _ _ := trivial
  bodies _ _ _ _ _ _ := .of_all (fun _ => trivial) _

/- Whether there is room at every level of a graph, and in what rules bring along. -/
structure Roomy (rs : RuleSet K) (g : Graph K) : Prop where
  levels : Graph.Everywhere (fun h => rs.Room h.nextId h.ops.length) g
  bodies : ∀ rule ∈ rs.rules, ∀ node ∈ rule.replacement.ops, ∀ body, node.body = some body →
    Graph.Everywhere (fun h => rs.Room h.nextId h.ops.length) body

theorem Roomy.spares {g : Graph K} (hRoomy : rs.Roomy g) : rs.Spares rs.Room where
  step _ hRule n k hRoom m hGrows := hRoom m (.head (.step hRule n k) hGrows)
  bodies := hRoomy.bodies

---- Rules That Shrink ----

section

variable {most : Nat}
  (hShrinks : ∀ rule ∈ rs.rules, rule.replacement.ops.length < rule.pattern.ops.length)
  (hMost : ∀ rule ∈ rs.rules, rule.replacement.ops.length ≤ most)

include hShrinks hMost

/- Each substitution takes away an operation at least and gives out a bounded number of ids. -/
theorem Room.of_shrinks (hCnt : Scalar.Counts K (n + most * k)) : rs.Room n k := by
  have hBound : ∀ x y, rs.Grows x y → y.1 + most * y.2 ≤ x.1 + most * x.2 := by
    rintro _ _ ⟨hRule, n, k⟩
    rename_i rule
    have hLess := Nat.mul_le_mul_left most (Nat.succ_le_of_lt (hShrinks rule hRule))
    have hFew := hMost rule hRule
    simp only [Nat.mul_add, Nat.mul_succ] at hLess ⊢
    omega
  have hAll : ∀ m, Relation.ReflTransGen rs.Grows (n, k) m → m.1 + most * m.2 ≤ n + most * k := by
    intro m hGrows
    induction hGrows with
    | refl => exact Nat.le_refl _
    | tail _ hStep ih => exact (hBound _ _ hStep).trans ih
  intro m hGrows
  exact hCnt.mono ((Nat.le_add_right _ _).trans (hAll m hGrows))

theorem roomy_of_shrinks (hFlat : ∀ rule ∈ rs.rules, ∀ node ∈ rule.replacement.ops, node.body = none)
    {g : Graph K} (hCnt : Graph.Everywhere
      (fun h => Scalar.Counts K (h.nextId + most * h.ops.length)) g) : rs.Roomy g where
  levels := hCnt.mono (fun _ hHere => .of_shrinks hShrinks hMost hHere)
  bodies rule hRule node hN _ hB := nomatch hB.symm.trans (hFlat rule hRule node hN)

end

end RuleSet

---- Exact Numbers ----

theorem RuleSet.roomy_rational (rs : RuleSet ℚ) (g : Graph ℚ) : rs.Roomy g where
  levels := .of_all (fun _ _ _ => Scalar.counts_rational _) g
  bodies _ _ _ _ _ _ := .of_all (fun _ _ _ => Scalar.counts_rational _) _

end CircuitGraph
