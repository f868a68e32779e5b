import Mathlib
import CircuitGraph.Proofs.Match.Finding

/-
  Patterns whose occurrences are always convex.

  If every operation that an input of the pattern feeds leads
  to every operation that feeds an output, no path can leave
  an occurrence and come back: it would close a cycle.
-/

---- Paths across a Region ----

namespace CircuitGraph

variable {K : Type}

theorem exists_leaving {α : Type} {r : α → α → Prop} {S : α → Prop} {a b : α}
    (hPath : Relation.TransGen r a b) (hIn : S a) (hOut : ¬ S b) :
    ∃ x y, S x ∧ ¬ S y ∧ r x y ∧ Relation.ReflTransGen r y b := by
  induction hPath using Relation.TransGen.head_induction_on with
  | single hStep => exact ⟨_, _, hIn, hOut, hStep, .refl⟩
  | @head a c hStep hRest ih =>
    by_cases hNext : S c
    · exact ih hNext
    · exact ⟨a, c, hIn, hNext, hStep, hRest.to_reflTransGen⟩

theorem exists_entering {α : Type} {r : α → α → Prop} {S : α → Prop} {a b : α}
    (hPath : Relation.TransGen r a b) (hOut : ¬ S a) (hIn : S b) :
    ∃ x y, ¬ S x ∧ S y ∧ r x y ∧ Relation.ReflTransGen r a x := by
  induction hPath with
  | single hStep => exact ⟨_, _, hOut, hIn, hStep, .refl⟩
  | @tail c b hRest hStep ih =>
    by_cases hBef : S c
    · exact ih hBef
    · exact ⟨c, b, hBef, hIn, hStep, hRest.to_reflTransGen⟩

namespace Graph

def Funnel (pattern : Graph K) : Prop :=
  ∀ n ∈ pattern.opIds, ∀ m ∈ pattern.opIds, (∃ i j, pattern.Wired (inputId, i) (n, j)) →
    (∃ i j, pattern.Wired (m, i) (outputId, j)) → Relation.ReflTransGen pattern.Edge n m

variable {pattern host : Graph K} {f : Nat → Nat}

theorem Occurs.reflTransGen (hOcc : pattern.Occurs host f) (hS : pattern.Sound) {n m : Nat}
    (hN : n ∈ pattern.opIds) (hM : m ∈ pattern.opIds)
    (hPath : Relation.ReflTransGen pattern.Edge n m) :
    Relation.ReflTransGen host.Edge (f n) (f m) := by
  induction hPath using Relation.ReflTransGen.head_induction_on with
  | refl => exact .refl
  | @head n k hStep hRest ih =>
    rcases hS.edge_target hStep with rfl | hK
    · -- nothing comes after the output, so the path would end there
      rcases Relation.ReflTransGen.cases_head hRest with rfl | ⟨l, hNext, -⟩
      · exact absurd rfl (hS.ne_boundary hM).2
      · exact absurd hNext (hS.not_edge_outputId _)
    · rcases edge_iff_wired.mp hStep with ⟨i, j, hW⟩
      exact .head (hOcc.wired n hN k hK i j hW).edge (ih hK)

theorem Occurs.convex {rule : Rule K} (hOcc : rule.pattern.Occurs host f) (hUse : rule.Usable)
    (hFunnel : rule.pattern.Funnel) (hS : host.Sound) (hAcy : host.Acyclic) :
    host.Convex (rule.pattern.InImage f) := by
  intro u v w hU hV hW hOut hBack
  rcases exists_leaving hOut hU hV with ⟨x, y, ⟨n, hN, rfl⟩, hY, hLeave, hOn⟩
  rcases exists_entering hBack hV hW with ⟨x', y', hX', ⟨m, hM, rfl⟩, hEnter, hOff⟩
  rcases edge_iff_wired.mp hLeave with ⟨i, j, hLeaves⟩
  rcases edge_iff_wired.mp hEnter with ⟨i', j', hEnters⟩
  have hExit := hOcc.exists_output hN hLeaves hY
  have hEntry := hUse.exists_input hS hOcc hM hEnters hX'
  rcases hExit with ⟨k, hExit⟩
  rcases hEntry with ⟨l, hEntry⟩
  have hIn := hOcc.reflTransGen hUse.pattern.sound hM hN
    (hFunnel m hM n hN ⟨l, j', hEntry⟩ ⟨i, k, hExit⟩)
  have hAr : Relation.ReflTransGen host.Edge y (f m) := (hOn.trans hOff).tail hEnter
  exact hAcy (f n) (.head' hLeave (hAr.trans hIn))

end Graph

---- The Library ----

namespace Graph

instance (g : Graph K) : DecidableRel g.Edge := fun u v =>
  inferInstanceAs (Decidable (∃ w ∈ g.wires, w.src.node = u ∧ w.dst.node = v))

def Narrow (pattern : Graph K) : Prop :=
  ∀ n ∈ pattern.opIds, ∀ m ∈ pattern.opIds, pattern.Edge inputId n → pattern.Edge m outputId →
    n = m ∨ pattern.Edge n m ∨ ∃ k ∈ pattern.opIds, pattern.Edge n k ∧ pattern.Edge k m

instance (pattern : Graph K) : Decidable pattern.Narrow :=
  inferInstanceAs (Decidable (∀ n ∈ pattern.opIds, ∀ m ∈ pattern.opIds, pattern.Edge inputId n →
    pattern.Edge m outputId →
      n = m ∨ pattern.Edge n m ∨ ∃ k ∈ pattern.opIds, pattern.Edge n k ∧ pattern.Edge k m))

theorem Narrow.funnel {pattern : Graph K} (hNarrow : pattern.Narrow) : pattern.Funnel := by
  intro n hN m hM hFed hFeeds
  rcases hNarrow n hN m hM (edge_iff_wired.mpr hFed) (edge_iff_wired.mpr hFeeds) with
    rfl | hEdge | ⟨k, -, hFirst, hSecond⟩
  · exact .refl
  · exact .single hEdge
  · exact .head hFirst (.single hSecond)

end Graph

/- Rules with a narrow pattern and a smaller replacement that is an operation at most. -/
structure Rule.Tapers (rule : Rule K) : Prop where
  narrow : rule.pattern.Narrow
  smaller : rule.replacement.ops.length < rule.pattern.ops.length
  small : rule.replacement.ops.length ≤ 1
  flat : ∀ node ∈ rule.replacement.ops, node.body.isNone

instance (rule : Rule K) : Decidable rule.Tapers :=
  decidable_of_iff (rule.pattern.Narrow ∧ rule.replacement.ops.length < rule.pattern.ops.length ∧
      rule.replacement.ops.length ≤ 1 ∧ ∀ node ∈ rule.replacement.ops, node.body.isNone)
    ⟨fun h => ⟨h.1, h.2.1, h.2.2.1, h.2.2.2⟩, fun h => ⟨h.1, h.2, h.3, h.4⟩⟩

namespace Identities

variable [Scalar K]

def taper (rules : Except Fault (List (Rule K))) : Bool :=
  match rules with
  | .ok rules => ∀ rule ∈ rules, rule.Tapers
  | .error _ => true

omit [Scalar K] in
theorem tapers_of_mem {table : Except Fault (List (Rule K))} (hTaper : taper table = true)
    (rules : List (Rule K)) (hRules : table = .ok rules) : ∀ rule ∈ rules, rule.Tapers := by
  rw [hRules] at hTaper
  exact of_decide_eq_true hTaper

theorem tapers_of_standard {elideSwaps : Bool} {rules : List (Rule K)}
    (hRules : standard elideSwaps = .ok rules) : ∀ rule ∈ rules, rule.Tapers := by
  have hCancelling : taper (K := K) cancellations = true := by cbv
  have hMerging : taper (K := K) merges = true := by cbv
  have hConjugating : taper (K := K) conjugations = true := by cbv
  have hElision : taper (K := K) (return [← swapElision]) = true := by cbv
  refine forall_mem_standard (tapers_of_mem hCancelling) (tapers_of_mem hMerging)
    (tapers_of_mem hConjugating) (fun rule hRule => ?_) hRules
  exact tapers_of_mem hElision [rule] (bind_eq_ok_iff.mpr ⟨rule, hRule, rfl⟩) rule
    List.mem_cons_self

end Identities

end CircuitGraph
