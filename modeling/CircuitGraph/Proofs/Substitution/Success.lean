import CircuitGraph.Proofs.Match.Liveness
import CircuitGraph.Proofs.Substitution.Commit

/-
  Substitutions that succeed.

  A match of a graph without a cycle can always be planned,
  and what is planned for it can be carried out: its region is
  convex, so no cycle is closed.
-/

---- Plans of Matches ----

namespace CircuitGraph

variable {K : Type}

/- Whether a plan is for a convex region of the graph as it is now. -/
structure Plan.Secure (rs : RuleSet K) (p : Plan) (g : Graph K) : Prop where
  ready : p.Ready rs g
  convex : g.Convex (· ∈ p.found.ids)
  version : p.version = g.version

theorem Plan.Secure.of_unchanged {rs : RuleSet K} {p : Plan} {g g' : Graph K}
    (hSecure : p.Secure rs g) (hU : g.Unchanged g') : p.Secure rs g' :=
  ⟨hSecure.ready.of_alike hU.1, hU.1.resembles.convex_iff.mpr hSecure.convex,
    hSecure.version.trans hU.2.1.symm⟩

namespace RuleSet

variable {rs : RuleSet K} {g g' : Graph K} {m : Match} {rule : Rule K} {f : Nat → Nat}

theorem Finds.of_resembles (hFinds : rs.Finds g m rule f) (hSame : g.Resembles g') :
    rs.Finds g' m rule f :=
  ⟨hFinds.toNames, hSame.occurs hFinds.occurs, hSame.convex_iff.mpr hFinds.convex⟩

theorem Finds.of_alike (hFinds : rs.Finds g m rule f) (hA : g.Alike g') : rs.Finds g' m rule f :=
  hFinds.of_resembles hA.resembles

theorem Names.stands (hNames : rs.Names m rule f) (hC : rs.Compiled) : m.Stands rule.pattern f := by
  rcases hNames.exists_pattern hC with ⟨p, -, -, hDesc, hIds⟩
  refine ⟨?_, hNames.places⟩
  rw [show m.ids = p.nodes.map f from hIds]
  exact hDesc.nodes.map f

theorem Names.inImage_eq (hNames : rs.Names m rule f) (hC : rs.Compiled) :
    rule.pattern.InImage f = (· ∈ m.ids) := by
  funext n
  exact propext (hNames.stands hC).mem_ids_iff.symm

variable [Scalar K] [Scalar.Ordered K]

theorem Compiled.plan_cases (hC : rs.Compiled) (hSea : g.Searchable)
    (hNames : rs.Names m rule f) : ∃ g', g.Unchanged g' ∧ g'.Searchable ∧
      ((rs.Finds g m rule f ∧ ∃ p, Yields (rs.plan m) g p g' ∧ p.found = m ∧ p.Secure rs g') ∨
        (¬ rs.Finds g m rule f ∧ Fails (rs.plan m) g (.stale m.rule m.root) g')) := by
  rcases hC.yields_isLive hSea hNames with ⟨live, g', hLive, hMeans⟩
  have hRer := (Reads.isLive rs m).reranked hLive
  refine ⟨g', hRer.unchanged, hSea.of_reranked hRer, ?_⟩
  cases live with
  | false =>
    refine .inr ⟨fun hFinds => Bool.false_ne_true (hMeans.mpr hFinds), ?_⟩
    exact hLive.fails_bind (fails_throw_iff.mpr ⟨rfl, rfl⟩)
  | true =>
    have hFinds := hMeans.mp rfl
    have hStands := hNames.stands hC
    rcases hNames.exists_pattern hC with ⟨_, -, hUse, -, -⟩
    rcases exists_plan hUse hNames.member hSea.sound hFinds.occurs hStands hLive with
      ⟨p, hPlan, rfl, hVer, hJoins⟩
    have hAfter := hFinds.of_alike hRer.unchanged.1
    refine .inl ⟨hFinds, p, hPlan, rfl, ?_, ?_, hVer⟩
    · exact ⟨rule, f, hNames.member, hUse, hAfter.occurs, hStands, hJoins⟩
    · rw [← hNames.inImage_eq hC]
      exact hAfter.convex

end RuleSet

---- Carrying Out ----

variable [Scalar K]

theorem Plan.Secure.exists_carryOut {rs : RuleSet K} {p : Plan} {g : Graph K}
    (hSecure : p.Secure rs g) (hS : g.Sound) (hAcy : g.Acyclic) :
    ∃ (s : Splicing K) (g' : Graph K), s.host = g ∧ p.Splices rs s ∧
      (s.layout p p.keeps).Alike g' ∧ g'.Acyclic ∧
      Yields (rs.carryOut p) g (RuleSet.stepOf s.rule p (RuleSet.idsSince g.nextId g')) g' := by
  rcases hSecure.ready.exists_splices hS with ⟨s, rfl, hSpl⟩
  rcases hSpl.carryOut_spec with ⟨g', hLay, ⟨hNone, hY⟩ | ⟨hCycle, -⟩⟩
  · exact ⟨s, g', rfl, hSpl, hLay, hNone hAcy, hY⟩
  · have hRegion : s.Inside = (· ∈ p.found.ids) := by
      funext n
      exact propext hSpl.inside_iff
    refine absurd ((hSpl.result hLay).acyclic hAcy ?_) hCycle
    rw [hRegion]
    exact hSecure.convex

namespace RuleSet

/-
  What applying a match does: a plan for the match is made,
  which stands for a splicing, and the layout of the splicing
  is the graph that comes out.
-/
structure Applies (rs : RuleSet K) (g : Graph K) (m : Match) (p : Plan) (s : Splicing K)
    (g' : Graph K) : Prop where
  host : g.Unchanged s.host
  planned : Yields (rs.plan m) g p s.host
  found : p.found = m
  splices : p.Splices rs s
  layout : (s.layout p p.keeps).Alike g'
  acyclic : g'.Acyclic
  yields : Yields (rs.apply m) g (stepOf s.rule p (idsSince g.nextId g')) g'

variable {rs : RuleSet K} {g g' : Graph K} {m : Match}

theorem yields_apply {p : Plan} {g₁ : Graph K} {step : Step} (hPlan : Yields (rs.plan m) g p g₁)
    (hVer : p.version = g₁.version) (hCarry : Yields (rs.carryOut p) g₁ step g') :
    Yields (rs.apply m) g step g' := by
  refine .bind hPlan (yields_bind_iff.mpr ⟨(p, false), g₁, ?_, hCarry⟩)
  refine .bind rfl ?_
  rw [if_pos hVer.symm]
  exact rfl

theorem Compiled.exists_applies [Scalar.Ordered K] (hC : rs.Compiled)
    (hSea : g.Searchable) {rule : Rule K} {f : Nat → Nat} (hFinds : rs.Finds g m rule f) :
    ∃ p s g', rs.Applies g m p s g' := by
  rcases hC.plan_cases hSea hFinds.toNames with
    ⟨g₁, hU, hSea₁, ⟨-, p, hPlan, hFnd, hSecure⟩ | ⟨hNot, -⟩⟩
  · rcases hSecure.exists_carryOut hSea₁.sound hSea₁.acyclic with
      ⟨s, g', rfl, hSpl, hLay, hAcy, hCarry⟩
    refine ⟨p, s, g', hU, hPlan, hFnd, hSpl, hLay, hAcy, ?_⟩
    rw [← hU.1.nextId]
    exact yields_apply hPlan hSecure.version hCarry
  · exact absurd hFinds hNot

end RuleSet

end CircuitGraph
