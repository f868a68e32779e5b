import CircuitGraph.Proofs.Graph.Isomorphism
import CircuitGraph.Proofs.Graph.Valuation

/-
  Values of the nodes of a level.

  Values that are found along a topological order are those
  that each node has by the nodes before it, and a sum over a
  level adds up one part for each operation.
-/

---- Values along an Order ----

namespace CircuitGraph

open List

open CircuitGraph.Graph (valueOf?)

theorem exists_values_of_foldlM {α : Type} [Inhabited α] {waits : Nat → Nat → Prop}
    {value : List (Nat × α) → Nat → Except Fault α} {order : List Nat} (hNodup : order.Nodup)
    (hOrd : Ordered waits order) {result : List (Nat × α)}
    (hRun : order.foldlM (fun done n => do return (n, ← value done n) :: done) [] = .ok result) :
    ∃ d : Nat → α, result = (order.map (fun n => (n, d n))).reverse ∧
      ∀ n ∈ order, ∃ done, (∀ p, waits n p → valueOf? done p = some (d p)) ∧
        value done n = .ok (d n) := by
  induction order using List.reverseRecOn generalizing result with
  | nil => exact ⟨fun _ => default, (Except.ok.inj hRun).symm, by simp⟩
  | append_singleton before x ih =>
    rw [foldlM_append] at hRun
    rcases bind_eq_ok_iff.mp hRun with ⟨done, hBef, hLast⟩
    rw [foldlM_cons] at hLast
    rcases bind_eq_ok_iff.mp hLast with ⟨done', hStep, hEnd⟩
    rcases bind_eq_ok_iff.mp hStep with ⟨a, hValue, hCons⟩
    obtain rfl : (x, a) :: done = result :=
      (Except.ok.inj hCons).trans (Except.ok.inj hEnd)
    have hNew : x ∉ before := by
      intro hM
      exact (nodup_append.mp hNodup).2.2 x hM x (mem_singleton_self x) rfl
    have hShorter : Ordered waits before := by
      intro left n right hSplit p hWaits
      refine hOrd left n (right ++ [x]) ?_ p hWaits
      rw [hSplit, append_assoc, cons_append]
    rcases ih (nodup_append.mp hNodup).1 hShorter hBef with ⟨d, rfl, hValues⟩
    -- the values given before are kept, and nothing before waits for the new node
    have hOld : ∀ n ∈ before, Function.update d x a n = d n :=
      fun n hM => Function.update_of_ne (ne_of_mem_of_not_mem hM hNew) a d
    have hMap : before.map (fun n => (n, Function.update d x a n)) =
        before.map (fun n => (n, d n)) :=
      map_congr_left (fun n hM => by rw [hOld n hM])
    refine ⟨Function.update d x a, ?_, ?_⟩
    · rw [map_append, hMap]
      simp
    · intro n hM
      rcases mem_append.mp hM with hEarlier | hSame
      · rcases hValues n hEarlier with ⟨done, hDone, hHere⟩
        refine ⟨done, fun p hWaits => ?_, by rw [hOld n hEarlier]; exact hHere⟩
        have hLt := hShorter.idxOf_lt hEarlier hWaits
        have hThere : p ∈ before :=
          idxOf_lt_length_iff.mp (hLt.trans (idxOf_lt_length_iff.mpr hEarlier))
        rw [hOld p hThere]
        exact hDone p hWaits
      · obtain rfl := mem_singleton.mp hSame
        refine ⟨_, fun p hWaits => ?_, by rw [Function.update_self]; exact hValue⟩
        have hThere : p ∈ before := hOrd before n [] rfl p hWaits
        have hKeys : ((before.map (fun n => (n, d n))).reverse.map Prod.fst).Nodup := by
          rw [map_reverse, map_map, nodup_reverse]
          simpa [Function.comp_def] using (nodup_append.mp hNodup).1
        rw [hOld p hThere, Graph.valueOf?_eq_some_iff hKeys, mem_reverse]
        exact mem_map_of_mem hThere

namespace Graph

variable {K α : Type} {g : Graph K}

/- A value for each node, found from the values of the nodes that it waits for. -/
theorem Sound.exists_values [Inhabited α] (hS : g.Sound) (hAcy : g.Acyclic)
    (value : List (Nat × α) → Nat → Except Fault α)
    (hTotal : ∀ done n, ∃ a, value done n = .ok a) :
    ∃ order, ∃ d : Nat → α, g.topologicalOrder = .ok order ∧ order.Perm g.nodeIds ∧
      order.foldlM (fun done n => do return (n, ← value done n) :: done) [] =
        .ok (order.map (fun n => (n, d n))).reverse ∧
      ∀ n ∈ g.nodeIds, ∃ done, (∀ p, g.Edge p n → valueOf? done p = some (d p)) ∧
        value done n = .ok (d n) := by
  rcases hS.exists_topologicalOrder hAcy with ⟨order, hOrder⟩
  rcases hS.topologicalOrder_ok hOrder with ⟨hPerm, hOrd⟩
  have hRun : ∃ result, order.foldlM (fun done n => do return (n, ← value done n) :: done) [] =
      .ok result := by
    refine exists_foldlM_eq_ok (fun done n _ => ?_) []
    rcases hTotal done n with ⟨a, hHere⟩
    rw [hHere]
    exact ⟨_, rfl⟩
  rcases hRun with ⟨result, hRun⟩
  rcases exists_values_of_foldlM (hPerm.nodup_iff.mpr hS.nodeIds_nodup) hOrd hRun with
    ⟨d, rfl, hValues⟩
  exact ⟨order, d, hOrder, hPerm, hRun, fun n hM => hValues n (hPerm.mem_iff.mpr hM)⟩

---- Sums ----

theorem Sound.valueOf?_owned {α : Type} (hS : g.Sound)
    (hOwned : ∀ node ∈ g.ops, node.enclosing = none) (value : Graph K → α) (endless : α)
    {node : Node (Graph K)} (hN : node ∈ g.ops) :
    valueOf? (g.nestedValues value endless) node.id = node.body.map value := by
  rw [hS.valueOf?_nested value endless hN, hOwned node hN]
  exact Option.or_none

end Graph

namespace Cost

variable {K : Type} [Scalar K] {g : Graph K}

def addUp (parts : List (Except Fault K)) (start : K) : Except Fault K :=
  parts.foldlM (fun total part => do return total + (← part)) start

def partOf (weight : Kind → List Param → Except Fault K) (node : Node (Graph K)) : Except Fault K :=
  (node.body.map (sumOver weight)).getD (weight node.kind node.params)

theorem sumOver_eq_addUp (weight : Kind → List Param → Except Fault K) (hS : g.Sound)
    (hF : g.WellFormed) :
    sumOver weight g = addUp (g.sortedOps.map (partOf weight)) ((0 : Nat) : K) := by
  have hParts : g.sortedOps.map (partOf weight) = g.sortedOps.map (fun node =>
      (Graph.valueOf? (g.nestedValues (sumOver weight) (.error .tooDeep)) node.id).getD
        (weight node.kind node.params)) := by
    refine map_congr_left (fun node hN => ?_)
    rw [hS.valueOf?_owned (fun _ => hF.owned) _ _ (Graph.mem_sortedOps_iff.mp hN)]
    rfl
  rw [hParts, addUp, foldlM_map, sumOver, Graph.foldWith_eq]
  rfl

end Cost

end CircuitGraph
