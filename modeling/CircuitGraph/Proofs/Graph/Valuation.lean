import CircuitGraph.Proofs.Graph.Essence
import CircuitGraph.Proofs.Graph.Measuring

/-
  Costs of graphs of the same essence.

  Neither the order of the operations nor what is remembered
  counts for the cost of a graph.
-/

---- Values of Essences ----

namespace CircuitGraph

open List

namespace Graph

variable {K : Type} {g : Graph K}

theorem Sound.mirrors_essence (hS : g.Sound) :
    g.Mirrors (fun b b' => b' = b.essence) g.essence := by
  rw [essence_eq hS.unique]
  refine ⟨rfl, rfl, rfl, Nat.le_refl _, essenceOf, fun node _ => ?_, ?_⟩
  · exact ⟨rfl, rfl, rfl, rfl, optionRel_map (fun _ _ => rfl)⟩
  · exact (g.sortedOps_perm.map essenceOf).symm

theorem Sound.essence (hS : g.Sound) : g.essence.Sound := by
  refine hS.mirrors_essence.sound ?_ hS
  rintro b _ rfl
  exact b.signature_essence

theorem valueOf?_nested_eq_none {α : Type} (value : Graph K → α) (endless : α) {n : Nat}
    (hOther : n ∉ g.opIds) : valueOf? (g.nestedValues value endless) n = none := by
  rw [valueOf?_eq_none_iff, nestedValues, map_append, mem_append]
  rintro (hB | hEnclosed)
  · rw [bodyValues, map_map] at hB
    rcases mem_map.mp hB with ⟨⟨m, body⟩, hThere, rfl⟩
    rcases mem_bodies_iff.mp hThere with ⟨node, hN, rfl, -⟩
    exact hOther (mem_opIds_of_mem hN)
  · rw [map_map] at hEnclosed
    rcases mem_map.mp hEnclosed with ⟨m, hThere, rfl⟩
    rcases mem_map.mp hThere with ⟨node, hN, rfl⟩
    exact hOther (mem_opIds_of_mem ((mem_filter.mp hN).1))

theorem opIds_essence (hUniq : (g.ops.map Node.id).Nodup) : g.essence.opIds = g.opIds := by
  rw [← map_id_sortedOps (unique_essence hUniq), sortedOps_essence hUniq, map_map, ← map_id_sortedOps hUniq]
  rfl

theorem Intact.foldWith_essence {α : Type} {endless : α} {step : Graph K → List (Nat × α) → α}
    (hStep : ∀ (g : Graph K) (values values' : List (Nat × α)), g.Sound →
      (∀ n, valueOf? values' n = valueOf? values n) → step g.essence values' = step g values)
    (hI : g.Intact) : g.essence.foldWith endless step = g.foldWith endless step := by
  induction hI with
  | intro g hS hBodies ih =>
    rw [foldWith_eq, foldWith_eq]
    apply hStep g _ _ hS
    intro n
    by_cases hM : n ∈ g.opIds
    · rcases mem_opIds_iff.mp hM with ⟨node, hN, rfl⟩
      have hOps : g.essence.ops = g.sortedOps.map essenceOf := by
        rw [essence_eq hS.unique]
      have hThere : essenceOf node ∈ g.essence.ops := by
        rw [hOps]
        exact mem_map_of_mem (mem_sortedOps_iff.mpr hN)
      have hB : (essenceOf node).body.map (fun b => b.foldWith endless step) =
          node.body.map (fun b => b.foldWith endless step) := by
        cases hSome : node.body with
        | none => simp [essenceOf, hSome]
        | some body => simpa [essenceOf, hSome] using ih node hN body hSome
      have hOld := hS.valueOf?_nested (fun b => b.foldWith endless step) endless hN
      have hNew := hS.essence.valueOf?_nested (fun b => b.foldWith endless step) endless hThere
      rw [hB] at hNew
      exact hNew.trans hOld.symm
    · rw [valueOf?_nested_eq_none _ _ hM,
        valueOf?_nested_eq_none _ _ (opIds_essence hS.unique ▸ hM)]

theorem predecessors_essence (hUniq : (g.ops.map Node.id).Nodup) :
    g.essence.predecessors = g.predecessors := by
  rw [essence_eq hUniq]
  rfl

theorem successors_essence (hUniq : (g.ops.map Node.id).Nodup) :
    g.essence.successors = g.successors := by
  rw [essence_eq hUniq]
  rfl

theorem topologicalOrder_essence (hUniq : (g.ops.map Node.id).Nodup) :
    g.essence.topologicalOrder = g.topologicalOrder := by
  rw [topologicalOrder, nodeIds, opIds_essence hUniq, predecessors_essence hUniq,
    successors_essence hUniq]
  rfl

theorem Intact.depth_essence (hI : g.Intact) : g.essence.depth = g.depth := by
  refine hI.foldWith_essence (fun g values values' hS hValues => ?_)
  have hWeight : g.essence.nodeWeight values' = g.nodeWeight values := by
    funext n
    rw [nodeWeight, nodeWeight, op?_essence hS.unique]
    cases hOp : g.op? n with
    | none => rfl
    | some node =>
      rcases op?_eq_some hOp with ⟨hN, rfl⟩
      simp only [Option.map_some, hValues node.id]
      rfl
  rw [depthLevel, depthLevel, topologicalOrder_essence hS.unique, hWeight,
    predecessors_essence hS.unique]

end Graph

namespace Cost

variable {K : Type} [Scalar K] {g g' : Graph K}

theorem sumOver_essence (weight : Kind → List Param → Except Fault K) (hI : g.Intact) :
    sumOver weight g.essence = sumOver weight g := by
  refine hI.foldWith_essence (fun g values values' hS hValues => ?_)
  have hSame : ∀ nodes : List (Node (Graph K)), (∀ node ∈ nodes, node ∈ g.ops) → ∀ start : K,
      (nodes.map Graph.essenceOf).foldlM (fun total node => do
        let part ← (Graph.valueOf? values' node.id).getD (weight node.kind node.params)
        return total + part) start =
      nodes.foldlM (fun total node => do
        let part ← (Graph.valueOf? values node.id).getD (weight node.kind node.params)
        return total + part) start := by
    intro nodes
    induction nodes with
    | nil => exact fun _ _ => rfl
    | cons node nodes ih =>
      intro hNodes start
      have hRest := ih (fun other hOther => hNodes other (mem_cons_of_mem _ hOther))
      rw [map_cons, foldlM_cons, foldlM_cons,
        show (Graph.essenceOf node).id = node.id from rfl, hValues node.id]
      exact bind_congr hRest
  rw [Graph.sortedOps_essence hS.unique]
  exact hSame _ (fun node hN => Graph.mem_sortedOps_iff.mp hN) _

theorem Standard.eval_eq {cost : Cost K} (hStd : cost.Standard) (hI : g.Intact)
    (hI' : g'.Intact) (hEss : g.essence = g'.essence) : cost.eval g = cost.eval g' := by
  have hSum : ∀ weight : Kind → List Param → Except Fault K, sumOver weight g = sumOver weight g' := by
    intro weight
    rw [← sumOver_essence weight hI, hEss, sumOver_essence weight hI']
  have hDepth : g.depth = g'.depth := by
    rw [← hI.depth_essence, hEss, hI'.depth_essence]
  cases hStd with
  | gates => exact hSum (fun kind _ => .ok (unit kind.isGate))
  | twoQubit => exact hSum (fun kind _ => .ok (unit (2 ≤ kind.qubits)))
  | weighted label one two three =>
    exact hSum (fun kind _ => kindWeight (.ok one) (.ok two) (.ok three) kind)
  | depth =>
    change (do return ((← g.depth : Nat) : K)) = (do return ((← g'.depth : Nat) : K))
    rw [hDepth]

end Cost

end CircuitGraph
