import CircuitGraph.Proofs.History.Commits

/-
  Ranks through a history of calls.

  Ranks are kept from one call to the next.  Whatever is
  called in between, they list each node once, ascend along
  every wire between ranked nodes, and leave out the nodes
  that wait.

  Main declarations:
    * `lasting_keyed`
    * `ranks_valid_after_calls`
-/

---- Each Node Once ----

namespace CircuitGraph

open List

namespace Graph

variable {K : Type} [Scalar K] {g g' : Graph K}

variable [Scalar.Ordered K]

theorem Sound.ends_topologicalRanks (hS : g.Sound) (hCnt : Scalar.Counts K g.nextId)
    (hKept : g.Kept) (hKeyed : g.Keyed) :
    Ends topologicalRanks g (fun ranks g' => g'.ranks = some ranks ∧ (ranks.map Prod.fst).Nodup)
      (fun _ => Keyed) := by
  refine (hS.ranked_topologicalRanks hCnt hKept).mono
    (fun _ _ hRanked => ⟨hRanked.kept, hRanked.keys hKeyed⟩) ?_
  rintro _ _ ⟨rfl | rfl, -⟩
  · exact hKeyed
  · intro _ hNone
    cases hNone

---- Ranks after Calls ----

variable {P : Graph K → Prop}

theorem Keyed.of_change (hKeyed : g.Keyed) (hS : g.Sound) (hCnt : Scalar.Counts K g.nextId)
    (hKept : g.Kept) (hChange : Change P g g') : g'.Keyed := by
  cases hChange with
  | rerank =>
    have hEnds := hS.ends_topologicalRanks hCnt hKept hKeyed
    rcases yields_or_fails topologicalRanks g with ⟨ranks, h, hY⟩ | ⟨fault, h, hFails⟩
    · rcases hEnds.1 ranks h hY with ⟨hRanks, hKeys⟩
      rw [hY]
      intro ranks' hRanks'
      obtain rfl := eq_of_some hRanks hRanks'
      exact hKeys
    · rw [hFails]
      exact hEnds.2 fault h hFails
  | @insertWire w =>
    intro ranks hRanks
    unfold insertWire at hRanks
    split at hRanks
    · cases hRanks
    · exact hKeyed ranks hRanks
  | @eraseNode n =>
    intro ranks hRanks
    rcases Option.map_eq_some_iff.mp hRanks with ⟨before, hBef, rfl⟩
    exact (hKeyed before hBef).sublist (filter_sublist.map Prod.fst)
  | _ => exact hKeyed

theorem lasting_keyed :
    Lasting (fun g : Graph K => Scalar.Counts K g.nextId → g.Kept ∧ g.Keyed) where
  empty _ _ _ := ⟨rfl, fun _ hNone => by cases hNone⟩
  change P g g' hS hBoth hChange hCnt := by
    have hBef := hCnt.mono (nextId_le_of_change hChange)
    rcases hBoth hBef with ⟨hKept, hKeyed⟩
    exact ⟨hKept.of_change hS hBef hChange, hKeyed.of_change hS hBef hKept hChange⟩
  level g ops index version hPerm hBoth hCnt :=
    ⟨lasting_kept.level g ops index version hPerm (fun hCnt => (hBoth hCnt).1) hCnt, (hBoth hCnt).2⟩
  takeOver _ _ _ := ⟨rfl, fun _ hNone => by cases hNone⟩

end Graph

/-
  After any calls on an empty graph, failed ones and earlier
  requests for ranks among them, ranks are refused for a cycle
  just if there is one.  Otherwise each node has one rank, no
  other node has any, and the ranks ascend along every wire.
-/
theorem ranks_valid_after_calls
    (inputs outputs : List WireType)
    (calls : List (GraphCall ℚ)) :
    let g := (Graph.empty inputs outputs).after calls
    ((∃ stuck g', Fails Graph.topologicalRanks g (.structural (.cycle stuck)) g') ↔
      ∃ n, Relation.TransGen g.Edge n n) ∧
    ((¬ ∃ n, Relation.TransGen g.Edge n n) →
      ∃ ranks g', Yields Graph.topologicalRanks g ranks g' ∧
        (ranks.map Prod.fst).Perm g.nodeIds ∧
        ∀ w ∈ g.wires, ∃ a b, (w.src.node, a) ∈ ranks ∧ (w.dst.node, b) ∈ ranks ∧ a < b) := by
  intro g
  rcases Graph.lasting_keyed.after ⟨Graph.sound_empty inputs outputs,
    Graph.lasting_keyed.empty inputs outputs⟩ calls with ⟨hSound, hBoth⟩
  have hCounts : Scalar.Counts ℚ g.nextId := Scalar.counts_rational _
  rcases hBoth hCounts with ⟨hKept, hKeyed⟩
  rcases hSound.rankedRight hCounts hKept with ⟨hRanked, hRefused⟩
  have hAcyclic : g.Acyclic ↔ ¬ ∃ n, Relation.TransGen g.Edge n n := not_exists.symm
  refine ⟨⟨?_, fun hLoop => hRefused (fun hNone => hAcyclic.mp hNone hLoop)⟩, fun hNone => ?_⟩
  · rintro ⟨stuck, g', hFails⟩
    by_contra hNone
    rcases hRanked (hAcyclic.mpr hNone) with ⟨ranks, g'', hYields, -⟩
    exact Yields.not_fails hYields hFails
  · rcases hRanked (hAcyclic.mpr hNone) with ⟨ranks, g', hYields, hNodes, hEdges⟩
    have hKeys := ((hSound.ends_topologicalRanks hCounts hKept hKeyed).1 ranks g' hYields).2
    refine ⟨ranks, g', hYields, ?_, fun w hWire => ?_⟩
    · refine (perm_ext_iff_of_nodup hKeys hSound.nodeIds_nodup).mpr (fun n => ?_)
      rw [← Graph.isSome_valueOf?_iff, hNodes]
    · rcases hEdges _ _ ⟨w, hWire, rfl, rfl⟩ with ⟨a, b, hLow, hHigh, hLess⟩
      exact ⟨a, b, (Graph.valueOf?_eq_some_iff hKeys).mp hLow,
        (Graph.valueOf?_eq_some_iff hKeys).mp hHigh, hLess⟩

end CircuitGraph
