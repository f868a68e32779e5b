import CircuitGraph.Proofs.Substitution.Restoration
import CircuitGraph.Proofs.Substitution.Rollback

/-
  Committing plans.

  Every edit raises the version of a graph, so a plan that has
  the version of the graph was made for the graph as it is.
-/

---- Versions ----

namespace CircuitGraph

theorem Plan.Ready.version_lt {K : Type} [Scalar K] {rs : RuleSet K} {p : Plan} {g g' : Graph K}
    (hReady : p.Ready rs g) (hS : g.Sound) (hAcy : g.Acyclic) {step : Step}
    (hY : Yields (rs.carryOut p) g step g') : g.version < g'.version := by
  have hChg := (RuleSet.keeps_carryOut (fun _ _ _ _ _ _ => trivial) p).of_yields hY hS.changed
  rcases Graph.steady_of_changes hChg.changes with ⟨hLe, hSteady⟩
  refine Nat.lt_of_le_of_ne hLe (fun hSame => ?_)
  -- in the same version, the operations of the match would still be there
  rcases hReady.result_of_carryOut hS hAcy hY with ⟨s, rfl, -, hRes, -⟩
  rcases List.exists_mem_of_ne_nil _ s.usable.isPattern.nonempty with ⟨node, hN⟩
  have hIns := Splicing.inside_image (Graph.mem_opIds_of_mem hN)
  rcases Graph.mem_opIds_iff.mp hIns.mem_opIds with ⟨old, hOld, hId⟩
  rw [← hId] at hIns
  rcases (hRes.ops old).mp ((hSteady hSame.symm).ops ▸ hOld) with ⟨-, hNot⟩ | ⟨r, hR, rfl⟩
  · exact hNot hIns
  · exact Splicing.fresh_notMem (Graph.mem_opIds_of_mem hR) (Graph.mem_nodeIds_of_op hIns.mem_opIds)

---- Planning and Carrying Out ----

namespace RuleSet

variable {K : Type} [Scalar K] {rs : RuleSet K} {g : Graph K} {m : Match}

theorem Compiled.ready_of_plan (hC : rs.Compiled) (hS : g.Sound) {p : Plan}
    {g' : Graph K} (hPlan : Yields (rs.plan m) g p g') :
    g.Unchanged g' ∧ p.found = m ∧ p.version = g'.version ∧ p.Ready rs g' := by
  rcases hC.plan_spec hS hPlan with
    ⟨hU, rfl, hVer, rule, f, hRule, hUse, hOcc, hStands, hJoins⟩
  exact ⟨hU, rfl, hVer, rule, f, hRule, hUse, hOcc, hStands, hJoins⟩

theorem ends_apply {Q : Step → Graph K → Prop} {E : Fault → Graph K → Prop}
    (hPlan : Ends (rs.plan m) g
      (fun p g' => p.version = g'.version ∧ Ends (rs.carryOut p) g' Q E) E) :
    Ends (rs.apply m) g Q E := by
  refine hPlan.bind (fun p g' hMade => ?_)
  refine Ends.bind (Q := fun out t => out = (p, false) ∧ t = g') ?_ ?_
  · refine .get_bind (.of_ite (fun _ => .of_pure ⟨rfl, rfl⟩) (fun hDiffers => ?_))
    exact absurd hMade.1.symm hDiffers
  · rintro _ _ ⟨rfl, rfl⟩
    exact hMade.2

theorem path_of_apply {g' : Graph K} {step : Step} (hY : Yields (rs.apply m) g step g') :
    step.path = [] := by
  rcases yields_bind_iff.mp hY with ⟨p, g₁, -, hCommit⟩
  rcases yields_bind_iff.mp hCommit with ⟨fresh, g₂, -, hCarry⟩
  exact path_of_carryOut hCarry

end RuleSet

end CircuitGraph
