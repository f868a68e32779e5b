import CircuitGraph.Proofs.Circuits

/-
  Convexity is told exactly.

  A path that leaves a set and comes back stays below the
  greatest rank of the set, as ranks ascend along it.

  Main declarations:
    * `Ranking.isConvexUnder_iff`
    * `isConvex_under_any_ranks`
-/

---- Convexity under Ranks ----

namespace CircuitGraph

open List

namespace Graph

variable {K : Type} {g : Graph K} {nodes : List Nat}

theorem Acyclic.convex_of_single (hAcy : g.Acyclic) (hShort : nodes.length < 2) :
    g.Convex (· ∈ nodes) := by
  intro u v w hU _ hW hOut hBack
  have hSame : u = w := by
    cases nodes with
    | nil => simp at hU
    | cons n rest =>
      obtain rfl : rest = [] := by
        cases rest with
        | nil => rfl
        | cons m rest =>
          simp only [length_cons] at hShort
          omega
      rw [mem_singleton.mp hU, mem_singleton.mp hW]
  exact hAcy u (hOut.trans (hSame ▸ hBack))

variable [Scalar K] {ranks : List (Nat × K)} {limit : K}

theorem mem_outsideNext_iff {n s : Nat} : s ∈ g.outsideNext ranks limit nodes n ↔
      g.Edge n s ∧ s ∉ nodes ∧ ∃ a, valueOf? ranks s = some a ∧ a < limit := by
  simp only [outsideNext, belowLimit, mem_filter, mem_successors_iff, Bool.and_eq_true,
    Bool.not_eq_true', contains_eq_mem, decide_eq_false_iff_not, Option.any_eq_true,
    decide_eq_true_eq]

theorem reached_of_visited {v : Nat}
    (hVisited : v ∈ explore id g.nodeIds (g.outsideNext ranks limit nodes)
      (nodes.flatMap (g.outsideNext ranks limit nodes)) []) :
    v ∉ nodes ∧ ∃ u ∈ nodes, Relation.TransGen g.Edge u v := by
  have hStart : ∀ s ∈ nodes.flatMap (g.outsideNext ranks limit nodes),
      s ∉ nodes ∧ ∃ u ∈ nodes, Relation.TransGen g.Edge u s := by
    intro s hStack
    rcases mem_flatMap.mp hStack with ⟨u, hU, hNext⟩
    rcases mem_outsideNext_iff.mp hNext with ⟨hEdge, hOut, -⟩
    exact ⟨hOut, u, hU, .single hEdge⟩
  have hStep : ∀ n ∈ g.nodeIds, (n ∉ nodes ∧ ∃ u ∈ nodes, Relation.TransGen g.Edge u n) →
      ∀ s ∈ g.outsideNext ranks limit nodes n,
        s ∉ nodes ∧ ∃ u ∈ nodes, Relation.TransGen g.Edge u s := by
    rintro n - ⟨-, u, hU, hPath⟩ s hNext
    rcases mem_outsideNext_iff.mp hNext with ⟨hEdge, hOut, -⟩
    exact ⟨hOut, u, hU, hPath.tail hEdge⟩
  have hReached := explore_induction (P := fun v => v ∉ nodes ∧
    ∃ u ∈ nodes, Relation.TransGen g.Edge u v) (by simp) hStart hStep hVisited
  exact hReached

namespace Ranking

variable [Scalar.Ordered K]

section

variable (hRk : g.Ranking ranks []) (hSound : g.Sound)
  (hLimit : Scalar.greatest? (nodes.filterMap (valueOf? ranks)) = some limit)

include hRk hSound hLimit

theorem below_limit {v w : Nat} (hPath : Relation.TransGen g.Edge v w) (hIns : w ∈ nodes) :
    ∃ a, valueOf? ranks v = some a ∧ a < limit := by
  have hRanked {n : Nat} (hN : n ∈ g.nodeIds) : ∃ a, valueOf? ranks n = some a :=
    Option.isSome_iff_exists.mp ((hRk.covered n hN).resolve_right (by simp))
  rcases Relation.TransGen.head'_iff.mp hPath with ⟨_, hFirst, -⟩
  rcases Relation.TransGen.tail'_iff.mp hPath with ⟨_, -, hLast⟩
  rcases hRanked (hSound.edge_mem hFirst).1 with ⟨a, hA⟩
  rcases hRanked (hSound.edge_mem hLast).2 with ⟨b, hB⟩
  rcases mem_filterMap.mp (Scalar.mem_of_greatest? hLimit) with ⟨top, -, hTop⟩
  have hNot := Scalar.not_lt_of_greatest? hLimit (mem_filterMap.mpr ⟨w, hIns, hB⟩)
  have hLt := hRk.lt_of_path hSound hPath hA hB
  exact ⟨a, hA, (hRk.placed top limit hTop).lt_of_lt_of_not hLt hNot⟩

theorem visited_of_path {u v w : Nat} (hU : u ∈ nodes) (hOut : Relation.TransGen g.Edge u v)
    (hV : v ∉ nodes) (hBack : Relation.TransGen g.Edge v w) (hW : w ∈ nodes) :
    v ∈ explore id g.nodeIds (g.outsideNext ranks limit nodes)
      (nodes.flatMap (g.outsideNext ranks limit nodes)) [] := by
  -- one step from the set, or from what was visited before
  have hStep : ∀ {x v}, g.Edge x v → v ∉ nodes → Relation.TransGen g.Edge v w →
      v ∈ g.outsideNext ranks limit nodes x ∧ v ∈ g.nodeIds := by
    intro x v hEdge hOutside hPath
    exact ⟨mem_outsideNext_iff.mpr ⟨hEdge, hOutside, hRk.below_limit hSound hLimit hPath hW⟩,
      (hSound.edge_mem hEdge).2⟩
  have hStart : ∀ {x v}, x ∈ nodes → g.Edge x v → v ∉ nodes → Relation.TransGen g.Edge v w →
      v ∈ (explore id g.nodeIds (g.outsideNext ranks limit nodes)
        (nodes.flatMap (g.outsideNext ranks limit nodes)) []).map id := by
    intro x v hX hEdge hOutside hPath
    rcases hStep hEdge hOutside hPath with ⟨hNext, hN⟩
    exact mem_explore_of_stack (a := v) (mem_flatMap.mpr ⟨x, hX, hNext⟩) hN
  rw [← map_id (explore _ _ _ _ _)]
  induction hOut with
  | single hEdge => exact hStart hU hEdge hV hBack
  | @tail x v hPath hEdge ih =>
    by_cases hX : x ∈ nodes
    · exact hStart hX hEdge hV hBack
    · rcases hStep hEdge hV hBack with ⟨hNext, hN⟩
      exact explore_closed (b := v) (by simp) (ih hX (.head hEdge hBack)) hNext hN

end

theorem isConvexUnder_iff (hRk : g.Ranking ranks []) (hSound : g.Sound)
    (hNodes : ∀ n ∈ nodes, n ∈ g.nodeIds) :
    g.isConvexUnder ranks nodes = true ↔ g.Convex (· ∈ nodes) := by
  unfold isConvexUnder
  split
  · -- there are no nodes
    rename_i hNone
    have hEmpty : nodes = [] := by
      rw [eq_nil_iff_forall_not_mem]
      intro n hM
      have hSome := (hRk.covered n (hNodes n hM)).resolve_right (by simp)
      rcases Option.isSome_iff_exists.mp hSome with ⟨a, hA⟩
      have hRank : a ∈ nodes.filterMap (valueOf? ranks) := mem_filterMap.mpr ⟨n, hM, hA⟩
      simp [Scalar.greatest?_eq_none_iff.mp hNone] at hRank
    subst hEmpty
    exact iff_of_true rfl (fun u _ _ hU => absurd hU (by simp))
  · rename_i limit hLimit
    simp only [all_eq_true, mem_successors_iff, Bool.not_eq_true', contains_eq_mem,
      decide_eq_false_iff_not]
    constructor
    · intro hAll u v w hU hV hW hOut hBack
      have hVisited := hRk.visited_of_path hSound hLimit hU hOut hV hBack hW
      -- the first step back into the set starts from a visited node
      induction hBack using Relation.TransGen.head_induction_on with
      | single hEdge => exact hAll _ hVisited w hEdge hW
      | @head v c hEdge hRest ih =>
        by_cases hC : c ∈ nodes
        · exact hAll v hVisited c hEdge hC
        · have hNext := hOut.tail hEdge
          exact ih hC hNext (hRk.visited_of_path hSound hLimit hU hNext hC hRest hW)
    · intro hConv v hVisited s hEdge hS
      rcases reached_of_visited hVisited with ⟨hV, u, hU, hPath⟩
      exact hConv u v s hU hV hS hPath (.single hEdge)

end Ranking

---- Convexity of a Graph with Ranks ----

variable [Scalar.Ordered K]

theorem Sound.yields_isConvex (hSound : g.Sound) (hAcy : g.Acyclic)
    (hCnt : Scalar.Counts K g.nextId) (hKept : g.Kept) (hNodes : ∀ n ∈ nodes, n ∈ g.nodeIds) :
    ∃ convex g', Yields (isConvex nodes) g convex g' ∧ (convex = true ↔ g.Convex (· ∈ nodes)) := by
  unfold isConvex
  split
  · rename_i hShort
    refine ⟨true, g, rfl, ?_⟩
    exact ⟨fun _ => hAcy.convex_of_single hShort, fun _ => rfl⟩
  · rcases hSound.yields_topologicalRanks hAcy hCnt hKept with ⟨ranks, hRanks, hRk⟩
    refine ⟨_, _, .bind hRanks (yields_bind_iff.mpr ⟨_, _, rfl, rfl⟩), ?_⟩
    have hA := (unchanged_topologicalRanks g).1
    have hSame : (outcome topologicalRanks g).2.isConvexUnder ranks nodes =
        g.isConvexUnder ranks nodes := hA.congr (fun h => h.isConvexUnder ranks nodes) (fun _ => rfl)
    rw [hSame]
    exact hRk.isConvexUnder_iff hSound hNodes

/-
  The answer is right whichever ranks a graph keeps, as long
  as they ascend along its wires.
-/
theorem isConvex_under_any_ranks
    (hSound : g.Sound)
    (hAcyclic : g.Acyclic)
    (hNodes : ∀ n ∈ nodes, n ∈ g.nodeIds) :
    ∃ convex, (convex = true ↔ g.Convex (· ∈ nodes)) ∧
      ∀ ranks, g.Ranking ranks [] →
        Yields (isConvex nodes) { g with ranks := some ranks, unranked := [] } convex
          { g with ranks := some ranks, unranked := [] } := by
  classical
  refine ⟨decide (g.Convex (· ∈ nodes)), decide_eq_true_iff, fun ranks hRanking => ?_⟩
  unfold isConvex
  split
  · rename_i hShort
    exact yields_pure_iff.mpr ⟨decide_eq_true (hAcyclic.convex_of_single hShort), rfl⟩
  · -- no node waits for its rank
    have hRanks : Yields topologicalRanks { g with ranks := some ranks, unranked := [] } ranks
        { g with ranks := some ranks, unranked := [] } := by
      refine .bind rfl (.bind (a := ()) (yields_set_iff.mpr rfl) ?_)
      simp
    refine .bind hRanks (.bind rfl (yields_pure_iff.mpr ⟨?_, rfl⟩))
    rw [Bool.eq_iff_iff, decide_eq_true_iff, ← hRanking.isConvexUnder_iff hSound hNodes]
    rfl

/- Three inversions in a row, and the nodes at the ends of each wire. -/
theorem exists_three_inversions :
    ∃ g : Graph ℚ,
      ofCircuit (Identities.circuit 1 [(.x, [0]), (.x, [0]), (.x, [0])]) = .ok g ∧
      g.validate = .ok () ∧ g.nodeIds = [0, 1, 2, 3, 4] ∧
      g.wires.map (fun w => (w.src.node, w.dst.node)) = [(0, 2), (2, 3), (3, 4), (4, 1)] := by
  have hCheck : (ofCircuit (K := ℚ)
      (Identities.circuit 1 [(.x, [0]), (.x, [0]), (.x, [0])])).toOption.any (fun g =>
        g.validate.isOk && g.nodeIds == [0, 1, 2, 3, 4] &&
        g.wires.map (fun w => (w.src.node, w.dst.node)) ==
          [(0, 2), (2, 3), (3, 4), (4, 1)]) = true := by
    decide +kernel
  rcases exists_of_toOption_any hCheck with ⟨g, hGraph, hAll⟩
  simp only [Bool.and_eq_true, beq_iff_eq] at hAll
  rcases hAll with ⟨⟨hValid, hIds⟩, hEnds⟩
  rcases exists_of_isOk hValid with ⟨⟨⟩, hValid⟩
  exact ⟨g, hGraph, hValid, hIds, hEnds⟩

/- Two inversions side by side lie together; the first and the last of three do not. -/
theorem isConvex_under_any_ranks_inversions :
    ∃ (g : Graph ℚ) (ranks : List (Nat × ℚ)),
      ofCircuit (Identities.circuit 1 [(.x, [0]), (.x, [0]), (.x, [0])]) = .ok g ∧ g.Sound ∧
      g.Acyclic ∧ g.Ranking ranks [] ∧
      Yields (isConvex [2, 3]) { g with ranks := some ranks, unranked := [] } true
        { g with ranks := some ranks, unranked := [] } ∧
      Yields (isConvex [2, 4]) { g with ranks := some ranks, unranked := [] } false
        { g with ranks := some ranks, unranked := [] } := by
  rcases exists_three_inversions with ⟨g, hGraph, hValid, hIds, hEnds⟩
  have hReach := reachable_of_ofCircuit hGraph
  have hAcyclic := (hReach.intact.validate_ok_iff.mp hValid).acyclic
  have hSound := hReach.intact.sound
  have hNodes : ∀ last ∈ [3, 4], ∀ n ∈ [2, last], n ∈ g.nodeIds := by simp [hIds]
  have hEdge : ∀ u v, g.Edge u v ↔ (u, v) ∈ [(0, 2), (2, 3), (3, 4), (4, 1)] := by
    intro u v
    rw [← hEnds, mem_map]
    simp only [Edge, Prod.mk.injEq]
  -- every edge leads one place further along the line
  have hAlong : ∀ u v, Relation.TransGen g.Edge u v →
      [0, 4, 1, 2, 3].getD u 0 < [0, 4, 1, 2, 3].getD v 0 := by
    intro u v hPath
    have hStep : ∀ u v, g.Edge u v → [0, 4, 1, 2, 3].getD u 0 < [0, 4, 1, 2, 3].getD v 0 := by
      intro u v hHere
      have hOne := (hEdge u v).mp hHere
      simp only [mem_cons, Prod.mk.injEq, not_mem_nil, or_false] at hOne
      rcases hOne with ⟨rfl, rfl⟩ | ⟨rfl, rfl⟩ | ⟨rfl, rfl⟩ | ⟨rfl, rfl⟩ <;> decide
    induction hPath with
    | single hHere => exact hStep _ _ hHere
    | tail _ hHere ih => exact ih.trans (hStep _ _ hHere)
  have hTogether : g.Convex (· ∈ [2, 3]) := by
    intro u v w hU _ hW hOut hBack
    have hLow := hAlong u v hOut
    have hHigh := hAlong v w hBack
    simp only [mem_cons, not_mem_nil, or_false] at hU hW
    rcases hU with rfl | rfl <;> rcases hW with rfl | rfl <;> simp at hLow hHigh <;> omega
  have hApart : ¬ g.Convex (· ∈ [2, 4]) := by
    intro hConvex
    exact hConvex 2 3 4 (by simp) (by simp) (by simp) (.single ((hEdge 2 3).mpr (by simp)))
      (.single ((hEdge 3 4).mpr (by simp)))
  rcases hSound.yields_topologicalRanks hAcyclic (Scalar.counts_rational _)
    (hReach.kept (Scalar.counts_rational _)) with
    ⟨ranks, -, hRanking⟩
  rcases isConvex_under_any_ranks hSound hAcyclic (hNodes 3 (by simp)) with
    ⟨convex, hConvex, hYields⟩
  rcases isConvex_under_any_ranks hSound hAcyclic (hNodes 4 (by simp)) with
    ⟨convex', hConvex', hYields'⟩
  obtain rfl : convex = true := hConvex.mpr hTogether
  obtain rfl : convex' = false := Bool.eq_false_iff.mpr (fun hTrue => hApart (hConvex'.mp hTrue))
  exact ⟨g, ranks, hGraph, hSound, hAcyclic, hRanking, hYields ranks hRanking,
    hYields' ranks hRanking⟩

end Graph

end CircuitGraph
