import CircuitGraph.Proofs.Graph.Change
import CircuitGraph.Proofs.Graph.Exploration
import CircuitGraph.Proofs.Scalar

/-
  Ranks that ascend along every wire.

  Ranks that are kept with a graph ascend along every wire
  between ranked nodes, and all other nodes wait.
-/

---- Rankings ----

namespace CircuitGraph

open List

namespace Graph

variable {K : Type} [Scalar K]

/- Ranks for the nodes of a graph, except for those that wait. -/
structure Ranking (g : Graph K) (ranks : List (Nat × K)) (waiting : List Nat) : Prop where
  covered : ∀ n ∈ g.nodeIds, (valueOf? ranks n).isSome ∨ n ∈ waiting
  known : ∀ n, (valueOf? ranks n).isSome → n ∈ g.nodeIds
  member : ∀ n ∈ waiting, n ∈ g.nodeIds
  apart : ∀ n ∈ waiting, valueOf? ranks n = none
  placed : ∀ n a, valueOf? ranks n = some a → Scalar.Placed a
  ascends : ∀ u v a b, g.Edge u v → valueOf? ranks u = some a → valueOf? ranks v = some b → a < b

def Kept (g : Graph K) : Prop :=
  match g.ranks with
  | none => g.unranked = []
  | some ranks => g.Ranking ranks g.unranked

def Keyed (g : Graph K) : Prop :=
  ∀ ranks, g.ranks = some ranks → (ranks.map Prod.fst).Nodup

theorem Ranking.of_level {g g' : Graph K} {ranks : List (Nat × K)} {waiting : List Nat}
    (hRk : g.Ranking ranks waiting) (hNodes : ∀ n, n ∈ g'.nodeIds ↔ n ∈ g.nodeIds)
    (hEdges : ∀ u v, g'.Edge u v → g.Edge u v) : g'.Ranking ranks waiting where
  covered n hN := hRk.covered n ((hNodes n).mp hN)
  known n hSome := (hNodes n).mpr (hRk.known n hSome)
  member n hWaits := (hNodes n).mpr (hRk.member n hWaits)
  apart := hRk.apart
  placed := hRk.placed
  ascends u v a b hEdge := hRk.ascends u v a b (hEdges u v hEdge)

theorem Kept.of_level {g g' : Graph K} (hKept : g.Kept) (hRanks : g'.ranks = g.ranks)
    (hWaiting : g'.unranked = g.unranked) (hNodes : ∀ n, n ∈ g'.nodeIds ↔ n ∈ g.nodeIds)
    (hEdges : ∀ u v, g'.Edge u v → g.Edge u v) : g'.Kept := by
  unfold Kept at hKept ⊢
  rw [hRanks, hWaiting]
  cases hSome : g.ranks with
  | none => simpa [hSome] using hKept
  | some ranks =>
    rw [hSome] at hKept
    exact Ranking.of_level hKept hNodes hEdges

theorem Ranking.lt_of_path [Scalar.Ordered K] {g : Graph K} {ranks : List (Nat × K)}
    (hRk : g.Ranking ranks []) (hS : g.Sound) {u v : Nat}
    (hPath : Relation.TransGen g.Edge u v) {a b : K} (hStart : valueOf? ranks u = some a)
    (hEnd : valueOf? ranks v = some b) : a < b := by
  induction hPath generalizing b with
  | single hEdge => exact hRk.ascends u _ a b hEdge hStart hEnd
  | @tail w v _ hEdge ih =>
    have hMid := (hRk.covered w (hS.edge_mem hEdge).1).resolve_right (by simp)
    rcases Option.isSome_iff_exists.mp hMid with ⟨c, hRank⟩
    exact Scalar.Ordered.trans (ih hRank) (hRk.ascends w v c b hEdge hRank hEnd)

---- Groups ----

variable {K : Type} {g : Graph K}

theorem groupOf_spec (g : Graph K) {waiting : List Nat} {n : Nat} (hWaits : n ∈ waiting) :
    n ∈ (g.groupOf waiting n).map Slot.toNat ∧
      (∀ m ∈ (g.groupOf waiting n).map Slot.toNat, m ∈ waiting) ∧
      ((g.groupOf waiting n).map Slot.toNat).Pairwise (· < ·) := by
  unfold groupOf
  rw [map_toNat_sortSlots]
  refine ⟨?_, fun m hM => ?_, sortIds_pairwise _⟩
  · rw [mem_sortIds]
    exact mem_explore_of_stack (a := Slot.number n) (by simp) hWaits
  · rw [mem_sortIds] at hM
    rcases mem_map.mp hM with ⟨s, hFnd, rfl⟩
    exact mem_of_explore (by simp) hFnd

theorem groupOrder?_spec {group order : List Nat} (hGroup : group.Pairwise (· < ·))
    (hOrder : g.groupOrder? group = some order) :
    order.Perm group ∧ Ordered (fun n p => n ∈ group ∧ p ∈ group ∧ g.Edge p n) order := by
  let inside (ns : List Nat) := ns.filter (fun m => group.contains m)
  have hLinked : Linked group (fun n => inside (g.predecessors n)) (fun n =>
      inside (g.successors n)) := by
    refine ⟨hGroup, fun _ => (predecessors_nodup g _).filter _,
      fun _ => (sortIds_nodup _).filter _, fun {m n} hN => ?_⟩
    simp [inside, hN, and_comm]
  have hKeys : (group.map (fun n => (n, inside (g.predecessors n)))).map Prod.fst = group := by
    simp [Function.comp_def]
  have hPerm := settle_perm (hKeys.symm ▸ hGroup.imp Nat.ne_of_lt)
  have hOrd := settle_ordered (hKeys.symm ▸ hGroup.imp Nat.ne_of_lt)
  have hDone := hLinked.length_orderNodes_iff
  rw [← hLinked.orderNodes_eq_settle, hKeys] at hPerm
  rw [← hLinked.orderNodes_eq_settle] at hOrd
  unfold groupOrder? at hOrder
  dsimp only at hOrder
  split_ifs at hOrder with hAll
  obtain rfl := Option.some.inj hOrder
  rw [hDone.mp hAll, append_nil] at hPerm
  refine ⟨hPerm, ?_⟩
  rintro before n after hSplit p ⟨hN, hIns, hEdge⟩
  refine hOrd before n after hSplit p ⟨_, mem_map.mpr ⟨n, hN, rfl⟩, ?_⟩
  exact mem_filter.mpr ⟨mem_predecessors_iff.mpr hEdge, by simpa using hIns⟩

theorem mem_outerRanks_iff {ranks : List (Nat × K)} {next : Nat → List Nat} {group : List Nat}
    {a : K} : a ∈ outerRanks ranks next group ↔
      ∃ n ∈ group, ∃ m ∈ next n, m ∉ group ∧ valueOf? ranks m = some a := by
  simp only [outerRanks, mem_filterMap, mem_flatMap, contains_iff_mem]
  constructor
  · rintro ⟨m, ⟨n, hN, hNext⟩, hRank⟩
    by_cases hIns : m ∈ group
    · simp [hIns] at hRank
    · exact ⟨n, hN, m, hNext, hIns, by simpa [hIns] using hRank⟩
  · rintro ⟨n, hN, m, hNext, hOut, hRank⟩
    exact ⟨m, ⟨n, hN, hNext⟩, by simpa [hOut] using hRank⟩

theorem valueOf?_zip_iff {order : List Nat} {values : List K} (hOrder : order.Nodup)
    (hLen : order.length ≤ values.length) {n : Nat} {a : K} :
    valueOf? (order.zip values) n = some a ↔ n ∈ order ∧ values[order.idxOf n]? = some a := by
  have hKeys : ((order.zip values).map Prod.fst).Nodup := by
    rwa [map_fst_zip hLen]
  rw [valueOf?_eq_some_iff hKeys, mem_iff_getElem?]
  constructor
  · rintro ⟨i, hAt⟩
    rcases getElem?_zip_eq_some.mp hAt with ⟨hN, hValue⟩
    rcases List.getElem?_eq_some_iff.mp hN with ⟨hLt, rfl⟩
    exact ⟨getElem_mem hLt, by rwa [hOrder.idxOf_getElem i hLt]⟩
  · rintro ⟨hM, hValue⟩
    refine ⟨order.idxOf n, getElem?_zip_eq_some.mpr ⟨?_, hValue⟩⟩
    rw [getElem?_eq_getElem (idxOf_lt_length_of_mem hM), getElem_idxOf]

variable [Scalar K]

theorem length_spread (low high : Option K) (count : Nat) :
    (spread low high count).length = count := by
  cases low <;> cases high <;> simp [spread]

theorem pairwise_of_ascending [Scalar.Ordered K] {xs : List K} (hAsc : ascending xs = true) :
    xs.Pairwise (· < ·) := by
  induction xs with
  | nil => exact .nil
  | cons a xs ih =>
    cases xs with
    | nil => simp
    | cons b rest =>
      rw [ascending, Bool.and_eq_true, decide_eq_true_iff] at hAsc
      have hRest := ih hAsc.2
      refine pairwise_cons.mpr ⟨fun c hM => ?_, hRest⟩
      rcases mem_cons.mp hM with rfl | hLater
      · exact hAsc.1
      · exact Scalar.Ordered.trans hAsc.1 ((pairwise_cons.mp hRest).1 c hLater)

theorem lt_of_idxOf_lt {order : List Nat} {values : List K} (hOrder : order.Nodup)
    (hLen : order.length ≤ values.length) (hValues : values.Pairwise (· < ·)) {u v : Nat}
    (hLt : order.idxOf u < order.idxOf v) {a b : K} (hL : valueOf? (order.zip values) u = some a)
    (hR : valueOf? (order.zip values) v = some b) : a < b := by
  have hA := ((valueOf?_zip_iff hOrder hLen).mp hL).2
  have hB := ((valueOf?_zip_iff hOrder hLen).mp hR).2
  rcases List.getElem?_eq_some_iff.mp hA with ⟨hI, rfl⟩
  rcases List.getElem?_eq_some_iff.mp hB with ⟨hJ, rfl⟩
  exact pairwise_iff_getElem.mp hValues _ _ hI hJ hLt

---- Placing Groups ----

variable {ranks placed : List (Nat × K)} {group : List Nat}

/-
  A group that was placed: its nodes in order, with ascending
  values above all ranked predecessors and below all ranked
  successors of the group.
-/
structure Settled (g : Graph K) (ranks : List (Nat × K)) (group : List Nat) (order : List Nat)
    (values : List K) : Prop where
  perm : order.Perm group
  ordered : Ordered (fun n p => n ∈ group ∧ p ∈ group ∧ g.Edge p n) order
  length : order.length = values.length
  rising : values.Pairwise (· < ·)
  placed : ∀ a ∈ values, Scalar.Placed a
  low : ∀ a ∈ outerRanks ranks g.predecessors group, Scalar.Placed a → ∀ b ∈ values, a < b
  high : ∀ b ∈ outerRanks ranks g.successors group, Scalar.Placed b → ∀ a ∈ values, a < b

theorem eq_zero_of_single {low high : Option K} {count : Nat} {a : K}
    (hM : a ∈ spread low high count)
    (hSingle : low.toList ++ (spread low high count ++ high.toList) = [a]) :
    a = ((0 : Nat) : K) := by
  have hLengths := congrArg List.length hSingle
  have hSome := length_pos_of_mem hM
  simp only [length_append, length_singleton, length_spread] at hLengths hSome
  cases low with
  | some l =>
    simp at hLengths
    omega
  | none =>
    cases high with
    | some h =>
      simp at hLengths
      omega
    | none =>
      obtain rfl : count = 1 := by simpa using hLengths
      simpa [spread] using hM

variable [Scalar.Ordered K]

theorem placed_of_pairwise {xs : List K} (hPairwise : xs.Pairwise (· < ·)) {a : K} (hM : a ∈ xs)
    (hSingle : xs = [a] → Scalar.Placed a) : Scalar.Placed a := by
  rcases append_of_mem hM with ⟨before, after, rfl⟩
  rcases pairwise_append.mp hPairwise with ⟨-, hAfter, hAcross⟩
  cases before with
  | cons b before => exact Scalar.Ordered.placed_right (hAcross b (by simp) a (by simp))
  | nil =>
    cases after with
    | nil => exact hSingle rfl
    | cons c after =>
      exact Scalar.Ordered.placed_left ((pairwise_cons.mp hAfter).1 c (by simp))

theorem settled_of_placeGroup (hZero : Scalar.Placed ((0 : Nat) : K)) (hGroup : group.Pairwise (· < ·))
    (hPlaced : g.placeGroup? ranks group = some placed) :
    ∃ order values, placed = order.zip values ∧ g.Settled ranks group order values := by
  unfold placeGroup? at hPlaced
  rcases Option.bind_eq_some_iff.mp hPlaced with ⟨order, hOrder, hRest⟩
  rcases groupOrder?_spec hGroup hOrder with ⟨hPerm, hOrd⟩
  generalize hLow : Scalar.greatest? (outerRanks ranks g.predecessors group) = low at hRest
  generalize hHigh : Scalar.least? (outerRanks ranks g.successors group) = high at hRest
  dsimp only at hRest
  split at hRest
  · rename_i hAsc
    have hPairwise := pairwise_of_ascending hAsc
    rw [append_assoc] at hPairwise
    rcases pairwise_append.mp hPairwise with ⟨-, hUpper, hBelow⟩
    rcases pairwise_append.mp hUpper with ⟨hValues, -, hAbove⟩
    refine ⟨order, spread low high order.length, (Option.some.inj hRest).symm, hPerm, hOrd,
      (length_spread low high _).symm, hValues, fun a hM => ?_, fun a hM hOwn b hValue => ?_,
      fun b hM hOwn a hValue => ?_⟩
    · refine placed_of_pairwise hPairwise (by simp [hM]) (fun hSingle => ?_)
      rw [eq_zero_of_single hM hSingle]
      exact hZero
    · cases low with
      | none => simp [Scalar.greatest?_eq_none_iff.mp hLow] at hM
      | some l =>
        have hLess := hBelow l (by simp) b (by simp [hValue])
        exact hOwn.lt_of_not_of_lt hLess (Scalar.not_lt_of_greatest? hLow hM)
    · cases high with
      | none => simp [Scalar.least?_eq_none_iff.mp hHigh] at hM
      | some h =>
        have hLess := hAbove a hValue h (by simp)
        exact hOwn.lt_of_lt_of_not hLess (Scalar.not_lt_of_least? hHigh hM)
  · simp at hRest

namespace Ranking

variable {waiting order : List Nat} {values : List K}

section

variable
  (hRk : g.Ranking ranks waiting)
  (hGroup : ∀ n ∈ group, n ∈ waiting)
  (hNodup : group.Nodup)
  (hSet : g.Settled ranks group order values)

include hRk hGroup hNodup hSet

omit [Scalar.Ordered K] in
theorem valueOf?_inside {n : Nat} (hIns : n ∈ group) :
    ∃ a ∈ values, valueOf? (ranks ++ order.zip values) n = some a ∧
      valueOf? (order.zip values) n = some a := by
  have hM : n ∈ order := hSet.perm.symm.subset hIns
  have hLt : order.idxOf n < values.length := by
    rw [← hSet.length]
    exact idxOf_lt_length_of_mem hM
  have hOrder := hSet.perm.nodup_iff.mpr hNodup
  have hOwn : valueOf? (order.zip values) n = some values[order.idxOf n] :=
    (valueOf?_zip_iff hOrder hSet.length.le).mpr ⟨hM, getElem?_eq_getElem hLt⟩
  refine ⟨values[order.idxOf n], getElem_mem hLt, ?_, hOwn⟩
  rw [valueOf?_append, hRk.apart n (hGroup n hIns), hOwn]
  rfl

omit [Scalar.Ordered K] hRk hGroup hNodup in
theorem valueOf?_outside {n : Nat} (hOut : n ∉ group) :
    valueOf? (ranks ++ order.zip values) n = valueOf? ranks n := by
  have hNone : valueOf? (order.zip values) n = none := by
    rw [valueOf?_eq_none_iff, map_fst_zip hSet.length.le]
    exact fun hM => hOut (hSet.perm.subset hM)
  rw [valueOf?_append, hNone, Option.or_none]

omit [Scalar.Ordered K] in
theorem extend {rest : List Nat} (hRest : ∀ n, n ∈ rest ↔ n ∈ waiting ∧ n ∉ group) :
    g.Ranking (ranks ++ order.zip values) rest := by
  have hIns {n : Nat} := hRk.valueOf?_inside hGroup hNodup hSet (n := n)
  have hOut {n : Nat} := valueOf?_outside hSet (n := n)
  have hOrder := hSet.perm.nodup_iff.mpr hNodup
  constructor
  case covered =>
    intro n hN
    by_cases hM : n ∈ group
    · rcases hIns hM with ⟨a, -, hValue, -⟩
      exact .inl (by simp [hValue])
    · rw [hOut hM, hRest]
      exact (hRk.covered n hN).imp_right (fun hWaits => ⟨hWaits, hM⟩)
  case known =>
    intro n hSome
    by_cases hM : n ∈ group
    · exact hRk.member n (hGroup n hM)
    · rw [hOut hM] at hSome
      exact hRk.known n hSome
  case member => exact fun n hWaits => hRk.member n ((hRest n).mp hWaits).1
  case apart =>
    intro n hWaits
    rcases (hRest n).mp hWaits with ⟨hOld, hM⟩
    rw [hOut hM, hRk.apart n hOld]
  case placed =>
    intro n a hValue
    by_cases hM : n ∈ group
    · rcases hIns hM with ⟨b, hB, hSame, -⟩
      obtain rfl := eq_of_some hSame hValue
      exact hSet.placed b hB
    · rw [hOut hM] at hValue
      exact hRk.placed n a hValue
  case ascends =>
    intro u v a b hEdge hL hR
    by_cases hU : u ∈ group <;> by_cases hV : v ∈ group
    · -- both are in the group, where values ascend in order
      rcases hIns hU with ⟨a', -, hSame, hA⟩
      rcases hIns hV with ⟨b', -, hSame', hB⟩
      obtain rfl := eq_of_some hSame hL
      obtain rfl := eq_of_some hSame' hR
      have hLt := hSet.ordered.idxOf_lt (hSet.perm.symm.subset hV) ⟨hV, hU, hEdge⟩
      exact lt_of_idxOf_lt hOrder hSet.length.le hSet.rising hLt hA hB
    · rcases hIns hU with ⟨a', hA, hSame, -⟩
      obtain rfl := eq_of_some hSame hL
      rw [hOut hV] at hR
      refine hSet.high b (mem_outerRanks_iff.mpr ?_) (hRk.placed v b hR) a' hA
      exact ⟨u, hU, v, mem_successors_iff.mpr hEdge, hV, hR⟩
    · rcases hIns hV with ⟨b', hB, hSame, -⟩
      obtain rfl := eq_of_some hSame hR
      rw [hOut hU] at hL
      refine hSet.low a (mem_outerRanks_iff.mpr ?_) (hRk.placed u a hL) b' hB
      exact ⟨v, hV, u, mem_predecessors_iff.mpr hEdge, hU, hL⟩
    · rw [hOut hU] at hL
      rw [hOut hV] at hR
      exact hRk.ascends u v a b hEdge hL hR

end

theorem placeWaiting (hZero : Scalar.Placed ((0 : Nat) : K)) (hRk : g.Ranking ranks waiting)
    {turns : Nat} (hTurns : waiting.length ≤ turns) {out : List (Nat × K) × List Slot}
    (hPlaced : g.placeWaiting? turns waiting ranks = some out) :
    g.Ranking out.1 [] ∧ ((ranks.map Prod.fst).Nodup → (out.1.map Prod.fst).Nodup) := by
  induction turns generalizing waiting ranks out with
  | zero =>
    obtain rfl : waiting = [] := length_eq_zero_iff.mp (Nat.le_zero.mp hTurns)
    obtain rfl := Option.some.inj hPlaced
    exact ⟨hRk, id⟩
  | succ turns ih =>
    rw [placeWaiting?] at hPlaced
    split at hPlaced
    · rename_i hNone
      obtain rfl : waiting = [] := eq_nil_iff_forall_not_mem.mpr (fun n hM => by
        simpa [hNone] using mem_sortIds.mpr hM)
      obtain rfl := Option.some.inj hPlaced
      exact ⟨hRk, id⟩
    · rename_i n others hSome
      have hWaits : n ∈ waiting := mem_sortIds.mp (hSome ▸ mem_cons_self)
      rcases groupOf_spec g hWaits with ⟨hFirst, hGroup, hAsc⟩
      have hNodup := hAsc.imp Nat.ne_of_lt
      rcases Option.bind_eq_some_iff.mp hPlaced with ⟨placed, hGroupPlaced, hNext⟩
      rcases settled_of_placeGroup hZero hAsc hGroupPlaced with ⟨order, values, rfl, hSet⟩
      rcases Option.bind_eq_some_iff.mp hNext with ⟨later, hLater, hOut⟩
      obtain rfl := Option.some.inj hOut
      have hExt := hRk.extend hGroup hNodup hSet (fun m => by
        rw [mem_filter, Bool.not_eq_true', ← Bool.not_eq_true, Slot.covers_iff] :
        ∀ m, m ∈ waiting.filter (fun m => !Slot.covers (g.groupOf waiting n) m) ↔ _)
      have hShorter : (waiting.filter (fun m => !Slot.covers (g.groupOf waiting n) m)).length <
          waiting.length := by
        refine length_filter_lt_length_iff_exists.mpr ⟨n, hWaits, ?_⟩
        simpa using hFirst
      rcases ih hExt (by omega) hLater with ⟨hEnd, hLast⟩
      refine ⟨hEnd, fun hKeys => hLast ?_⟩
      rw [map_append, map_fst_zip hSet.length.le]
      refine nodup_append.mpr ⟨hKeys, hSet.perm.nodup_iff.mpr hNodup, ?_⟩
      rintro m hRanked _ hNew rfl
      have hApart := hRk.apart m (hGroup m (hSet.perm.subset hNew))
      exact valueOf?_eq_none_iff.mp hApart hRanked

end Ranking

---- Ranking Afresh ----

variable {K : Type} {g : Graph K}

theorem Sound.length_nodeIds_le (hS : g.Sound) : g.nodeIds.length ≤ g.nextId := by
  have hSub : g.nodeIds ⊆ List.range g.nextId := fun n hM => mem_range.mpr (hS.lt_nextId hM)
  simpa using (hS.nodeIds_nodup.subperm hSub).length_le

variable [Scalar K]

theorem pairwise_counted {n : Nat} (hCnt : Scalar.Counts K n) :
    ((List.range n).map (fun i : Nat => (i : K))).Pairwise (· < ·) := by
  refine pairwise_map.mpr (pairwise_iff_getElem.mpr (fun i j hI hJ hLt => ?_))
  rw [getElem_range, getElem_range]
  exact hCnt i j hLt (by simpa using hJ)

variable [Scalar.Ordered K]

section

variable (hS : g.Sound) (hCnt : Scalar.Counts K g.nextId)

include hS hCnt

theorem Sound.ranking_of_topologicalOrder {order : List Nat}
    (hOrder : g.topologicalOrder = .ok order) :
    g.Ranking (order.zipIdx.map (fun entry => (entry.1, (entry.2 : K)))) [] := by
  rcases hS.topologicalOrder_ok hOrder with ⟨hPerm, hOrd⟩
  have hNodup : order.Nodup := hPerm.nodup_iff.mpr hS.nodeIds_nodup
  have hBound : order.length ≤ g.nextId := hPerm.length_eq ▸ hS.length_nodeIds_le
  have hCount := hCnt.mono hBound
  have hZip : order.zipIdx.map (fun entry => (entry.1, (entry.2 : K))) =
      order.zip ((List.range order.length).map (fun i : Nat => (i : K))) := by
    rw [zipIdx_eq_zip_range', ← range_eq_range', zip_map_right]
    rfl
  have hLen : order.length ≤ ((List.range order.length).map (fun i : Nat => (i : K))).length := by
    simp
  rw [hZip]
  constructor
  case covered =>
    intro n hN
    left
    rw [isSome_valueOf?_iff, map_fst_zip hLen]
    exact hPerm.symm.subset hN
  case known =>
    intro n hSome
    rw [isSome_valueOf?_iff, map_fst_zip hLen] at hSome
    exact hPerm.subset hSome
  case member => simp
  case apart => simp
  case placed =>
    intro n a hValue
    rcases (valueOf?_zip_iff hNodup hLen).mp hValue with ⟨hM, hAt⟩
    have hLt := idxOf_lt_length_of_mem hM
    obtain rfl : ((order.idxOf n : Nat) : K) = a := by simpa [hLt] using hAt
    refine hCount.placed ?_ hLt
    rw [hPerm.length_eq]
    simp [nodeIds]
  case ascends =>
    intro u v a b hEdge hL hR
    have hLt := hS.edge_lt_of_topologicalOrder hOrder hEdge
    exact lt_of_idxOf_lt hNodup hLen (pairwise_counted hCount) hLt hL hR

/-
  What a request for ranks leaves: all nodes are ranked, and if
  no node was listed twice before, then none is.
-/
structure Ranked (g : Graph K) (ranks : List (Nat × K)) (g' : Graph K) : Prop where
  ranking : g.Ranking ranks []
  kept : g'.ranks = some ranks
  ready : g'.unranked = []
  keys : g.Keyed → (ranks.map Prod.fst).Nodup

theorem Sound.ranked_rankAfresh :
    Ends rankAfresh g (Ranked g) (fun fault g' => g' = g ∧ ¬ g.Acyclic ∧
      ∃ stuck, fault = .structural (.cycle stuck)) := by
  refine .get_bind (.ofExcept_bind (fun order hOrder => ?_) (fun fault hFault => ⟨rfl, ?_, ?_⟩))
  · refine .set_bind (.of_pure ⟨hS.ranking_of_topologicalOrder hCnt hOrder, rfl, rfl, fun _ => ?_⟩)
    rw [map_map]
    change (order.zipIdx.map Prod.fst).Nodup
    rw [zipIdx_map_fst]
    exact (hS.topologicalOrder_ok hOrder).1.nodup_iff.mpr hS.nodeIds_nodup
  · intro hAcy
    rcases hS.exists_topologicalOrder hAcy with ⟨order, hOrder⟩
    cases hFault.symm.trans hOrder
  · unfold topologicalOrder at hFault
    dsimp only at hFault
    split_ifs at hFault
    exact ⟨_, (Except.error.inj hFault).symm⟩

variable (hKept : g.Kept)

include hKept

theorem Sound.ranked_topologicalRanks :
    Ends topologicalRanks g (Ranked g) (fun fault g' => (g' = g ∨ g' = g.dropRanks) ∧
      ¬ g.Acyclic ∧ ∃ stuck, fault = .structural (.cycle stuck)) := by
  unfold Kept at hKept
  refine .get_bind ?_
  split
  · exact (hS.ranked_rankAfresh hCnt).mono (fun _ _ hRanked => hRanked)
      (fun _ _ hFault => ⟨.inl hFault.1, hFault.2⟩)
  · rename_i ranks hRanks
    rw [hRanks] at hKept
    split
    · rename_i placed slots hPlaced
      have hZero := hCnt.placed hS.started (Nat.lt_trans Nat.zero_lt_one hS.started)
      rcases hKept.placeWaiting hZero (Nat.le_refl _) hPlaced with ⟨hRk, hKeys⟩
      exact .set_bind (.of_pure ⟨hRk, rfl, rfl, fun hKeyed => hKeys (hKeyed ranks hRanks)⟩)
    · refine .set_bind (((hS.of_alike (alike_dropRanks g)).ranked_rankAfresh hCnt).mono ?_ ?_)
      · intro ranks' g' hRanked
        refine ⟨hRanked.ranking.of_level (fun _ => Iff.rfl) (fun _ _ hEdge => hEdge), hRanked.kept,
          hRanked.ready, fun _ => hRanked.keys (fun _ hNone => ?_)⟩
        cases hNone
      · rintro fault _ ⟨rfl, hCyclic⟩
        exact ⟨.inr rfl, hCyclic⟩

theorem Sound.kept_topologicalRanks : (outcome topologicalRanks g).2.Kept := by
  have hEnds := hS.ranked_topologicalRanks hCnt hKept
  have hA := (unchanged_topologicalRanks g).1
  rcases yields_or_fails topologicalRanks g with ⟨ranks, h, hY⟩ | ⟨fault, h, hFails⟩
  · have hRanked := hEnds.1 ranks h hY
    rw [hY] at hA ⊢
    rw [Kept, hRanked.kept, hRanked.ready]
    exact hRanked.ranking.of_level (fun n => by rw [hA.nodeIds]) (fun u v => hA.edge_iff.mp)
  · rw [hFails]
    rcases (hEnds.2 fault h hFails).1 with rfl | rfl
    · exact hKept
    · exact rfl

end

theorem Sound.yields_topologicalRanks (hS : g.Sound) (hAcy : g.Acyclic)
    (hCnt : Scalar.Counts K g.nextId) (hKept : g.Kept) :
    ∃ ranks, Yields topologicalRanks g ranks (outcome topologicalRanks g).2 ∧
      g.Ranking ranks [] := by
  have hEnds := hS.ranked_topologicalRanks hCnt hKept
  rcases yields_or_fails topologicalRanks g with ⟨ranks, h, hY⟩ | ⟨fault, h, hFails⟩
  · refine ⟨ranks, ?_, (hEnds.1 ranks h hY).ranking⟩
    rwa [show (outcome topologicalRanks g).2 = h from congrArg Prod.snd hY]
  · exact absurd hAcy (hEnds.2 fault h hFails).2.1

---- Changes Keep Ranks ----

variable {K : Type} [Scalar K] {g : Graph K} {ranks : List (Nat × K)} {waiting : List Nat}

theorem Ranking.insertNode (hRk : g.Ranking ranks waiting) (hS : g.Sound)
    {node : Node (Graph K)} (hOp : isOpId node.id = true) (hFresh : node.id ∉ g.ops.map Node.id) :
    (g.insertNode node).Ranking ranks (waiting ++ [node.id]) := by
  have hNew : node.id ∉ g.nodeIds := by
    intro hM
    rcases mem_opIds_iff.mp ((hS.mem_opIds_iff_isOpId hM).mpr hOp) with ⟨other, hOther, hId⟩
    exact hFresh (hId ▸ mem_map_of_mem hOther)
  have hNodes : ∀ n, n ∈ (g.insertNode node).nodeIds ↔ n ∈ g.nodeIds ∨ n = node.id := by
    intro n
    simp only [mem_nodeIds_iff, mem_opIds_iff, Graph.insertNode, mem_append, mem_singleton]
    constructor
    · rintro (h | h | ⟨other, hOther | rfl, rfl⟩)
      · exact .inl (.inl h)
      · exact .inl (.inr (.inl h))
      · exact .inl (.inr (.inr ⟨other, hOther, rfl⟩))
      · exact .inr rfl
    · rintro ((h | h | ⟨other, hOther, rfl⟩) | rfl)
      · exact .inl h
      · exact .inr (.inl h)
      · exact .inr (.inr ⟨other, .inl hOther, rfl⟩)
      · exact .inr (.inr ⟨node, .inr rfl, rfl⟩)
  constructor
  case covered =>
    intro n hN
    rcases (hNodes n).mp hN with hOld | rfl
    · exact (hRk.covered n hOld).imp_right (mem_append_left _)
    · simp
  case known => exact fun n hSome => (hNodes n).mpr (.inl (hRk.known n hSome))
  case member =>
    intro n hWaits
    rcases mem_append.mp hWaits with hOld | hLast
    · exact (hNodes n).mpr (.inl (hRk.member n hOld))
    · exact (hNodes n).mpr (.inr (mem_singleton.mp hLast))
  case apart =>
    intro n hWaits
    rcases mem_append.mp hWaits with hOld | hLast
    · exact hRk.apart n hOld
    · rw [mem_singleton.mp hLast, ← Option.not_isSome_iff_eq_none]
      exact fun hSome => hNew (hRk.known _ hSome)
  case placed => exact hRk.placed
  case ascends => exact hRk.ascends

theorem Ranking.eraseNode (hRk : g.Ranking ranks waiting) {n : Nat} (hOp : isOpId n = true) :
    (g.eraseNode n).Ranking (ranks.filter (fun entry => entry.1 != n))
      (waiting.filter (fun m => m != n)) := by
  have hNodes : ∀ m, m ∈ (g.eraseNode n).nodeIds ↔ m ∈ g.nodeIds ∧ m ≠ n := by
    intro m
    have hInput : inputId ≠ n := by
      rintro rfl
      simp [isOpId, inputId, outputId] at hOp
    have hOutp : outputId ≠ n := by
      rintro rfl
      simp [isOpId] at hOp
    simp only [mem_nodeIds_iff, mem_opIds_iff, Graph.eraseNode, mem_filter, bne_iff_ne]
    constructor
    · rintro (rfl | rfl | ⟨other, ⟨hOther, hNe⟩, rfl⟩)
      · exact ⟨.inl rfl, hInput⟩
      · exact ⟨.inr (.inl rfl), hOutp⟩
      · exact ⟨.inr (.inr ⟨other, hOther, rfl⟩), hNe⟩
    · rintro ⟨rfl | rfl | ⟨other, hOther, rfl⟩, hNe⟩
      · exact .inl rfl
      · exact .inr (.inl rfl)
      · exact .inr (.inr ⟨other, ⟨hOther, hNe⟩, rfl⟩)
  have hValue : ∀ m a, valueOf? (ranks.filter (fun entry => entry.1 != n)) m = some a →
      m ≠ n ∧ valueOf? ranks m = some a := by
    intro m a hSome
    rw [valueOf?_filter] at hSome
    split at hSome
    · simp at hSome
    · exact ⟨by assumption, hSome⟩
  constructor
  case covered =>
    intro m hN
    rcases (hNodes m).mp hN with ⟨hOld, hNe⟩
    rw [valueOf?_filter, if_neg hNe]
    refine (hRk.covered m hOld).imp_right (fun hWaits => ?_)
    exact mem_filter.mpr ⟨hWaits, by simpa using hNe⟩
  case known =>
    intro m hSome
    rcases Option.isSome_iff_exists.mp hSome with ⟨a, hA⟩
    rcases hValue m a hA with ⟨hNe, hOld⟩
    exact (hNodes m).mpr ⟨hRk.known m (by simp [hOld]), hNe⟩
  case member =>
    intro m hWaits
    rcases mem_filter.mp hWaits with ⟨hOld, hNe⟩
    exact (hNodes m).mpr ⟨hRk.member m hOld, by simpa using hNe⟩
  case apart =>
    intro m hWaits
    rw [valueOf?_filter, hRk.apart m (mem_filter.mp hWaits).1, ite_self]
  case placed => exact fun m a hA => hRk.placed m a (hValue m a hA).2
  case ascends =>
    exact fun u v a b hEdge hA hB =>
      hRk.ascends u v a b hEdge (hValue u a hA).2 (hValue v b hB).2

theorem Ranking.appendWire (hRk : g.Ranking ranks waiting) (hRanks : g.ranks = some ranks)
    {w : Wire} (hAlong : g.againstRanks w.src.node w.dst.node = false) :
    ({ g with wires := g.wires ++ [w] } : Graph K).Ranking ranks waiting where
  covered := hRk.covered
  known := hRk.known
  member := hRk.member
  apart := hRk.apart
  placed := hRk.placed
  ascends := by
    rintro u v a b ⟨x, hM, rfl, rfl⟩ hA hB
    rcases mem_append.mp hM with hOld | hNew
    · exact hRk.ascends _ _ a b ⟨x, hOld, rfl, rfl⟩ hA hB
    · obtain rfl := mem_singleton.mp hNew
      simpa [againstRanks, rankOf?, hRanks, hA, hB] using hAlong

variable [Scalar.Ordered K] {P : Graph K → Prop} {g' : Graph K}

theorem Kept.of_change (hKept : g.Kept) (hS : g.Sound) (hCnt : Scalar.Counts K g.nextId)
    (hChange : Change P g g') : g'.Kept := by
  cases hChange with
  | rerank => exact hS.kept_topologicalRanks hCnt hKept
  | issue => exact hKept.of_level rfl rfl (fun _ => Iff.rfl) (fun _ _ hEdge => hEdge)
  | insertNode hN hB hOp hIssued hFresh =>
    unfold Kept at hKept ⊢
    cases hRanks : g.ranks with
    | none => simpa [insertNode, hRanks] using hKept
    | some ranks =>
      rw [hRanks] at hKept
      simpa [insertNode, hRanks] using hKept.insertNode hS hOp hFresh
  | @insertWire w t hOut hIn hFree hLin =>
    unfold Kept at hKept
    unfold insertWire
    split
    · rfl
    · rename_i hAgainst
      cases hRanks : g.ranks with
      | none => simpa [Kept, hRanks] using hKept
      | some ranks =>
        rw [hRanks] at hKept
        simp only [Kept]
        exact (hKept.appendWire hRanks (by simpa using hAgainst)).of_level (fun _ => Iff.rfl)
          (fun _ _ hEdge => hEdge)
  | @eraseWire w hM =>
    refine hKept.of_level rfl rfl (fun _ => Iff.rfl) ?_
    rintro _ _ ⟨x, hL, rfl, rfl⟩
    exact ⟨x, mem_of_mem_erase hL, rfl, rfl⟩
  | @eraseNode n hOp hApart =>
    unfold Kept at hKept ⊢
    cases hRanks : g.ranks with
    | none => simp_all [eraseNode]
    | some ranks =>
      rw [hRanks] at hKept
      simpa [eraseNode, hRanks] using hKept.eraseNode hOp

end Graph

end CircuitGraph
