import Mathlib.Algebra.Order.BigOperators.Group.List
import Mathlib.Algebra.Order.Ring.Nat
import Mathlib.Data.List.Chain
import CircuitGraph.Proofs.Circuits
import CircuitGraph.Proofs.Graph.Sums
import CircuitGraph.Proofs.Graph.Levels

/-
  Depths and paths.

  The distance of a node from the inputs is the greatest
  weight of a path that ends there.

  Main declarations:
    * `Path` and `weight`
    * `depth_longest_path`
-/

---- Distances ----

namespace CircuitGraph

open List

namespace Graph

variable {K : Type} {g : Graph K}

theorem greatest_le_iff {ns : List Nat} {k : Nat} : greatest ns ≤ k ↔ ∀ n ∈ ns, n ≤ k := by
  have hFold : ∀ start, ns.foldl max start ≤ k ↔ start ≤ k ∧ ∀ n ∈ ns, n ≤ k := by
    induction ns with
    | nil => simp
    | cons n ns ih =>
      intro start
      rw [foldl_cons, ih, Nat.max_le, forall_mem_cons, and_assoc]
  rw [greatest, hFold]
  exact and_iff_right (Nat.zero_le k)

theorem le_greatest {ns : List Nat} {n : Nat} (hM : n ∈ ns) : n ≤ greatest ns :=
  greatest_le_iff.mp (Nat.le_refl _) n hM

theorem greatest_mem {ns : List Nat} (hSome : ns ≠ []) : greatest ns ∈ ns := by
  by_contra hNone
  rcases exists_mem_of_ne_nil ns hSome with ⟨n, hM⟩
  have hLess : ∀ m ∈ ns, m < greatest ns := fun m hThere =>
    lt_of_le_of_ne (le_greatest hThere) (fun hEq => hNone (hEq ▸ hThere))
  have hPos := Nat.zero_lt_of_lt (hLess n hM)
  have hLower := greatest_le_iff.mpr (fun m hThere => Nat.le_sub_one_of_lt (hLess m hThere))
  omega

def Distances (g : Graph K) (weight d : Nat → Nat) : Prop :=
  ∀ n ∈ g.nodeIds, d n = greatest ((g.predecessors n).map d) + weight n

theorem Sound.exists_distances (hS : g.Sound) (hAcy : g.Acyclic)
    {values : List (Nat × Except Fault Nat)} {weight : Nat → Nat}
    (hWeight : ∀ n, g.nodeWeight values n = .ok (weight n)) :
    ∃ d, g.Distances weight d ∧ g.depthLevel values = .ok (greatest (g.nodeIds.map d)) := by
  let value (done : List (Nat × Nat)) (n : Nat) : Except Fault Nat :=
    .ok (greatest ((g.predecessors n).filterMap (valueOf? done)) + weight n)
  rcases hS.exists_values hAcy value (fun _ _ => ⟨_, rfl⟩) with
    ⟨order, d, hOrder, hPerm, hRun, hValues⟩
  refine ⟨d, fun n hM => ?_, ?_⟩
  · rcases hValues n hM with ⟨done, hDone, hHere⟩
    have hBef : (g.predecessors n).filterMap (valueOf? done) = (g.predecessors n).map d := by
      rw [← filterMap_eq_map]
      exact filterMap_congr (fun p hP => hDone p (mem_predecessors_iff.mp hP))
    rw [← hBef]
    exact (Except.ok.inj hHere).symm
  · unfold depthLevel
    simp only [hOrder, hWeight]
    refine bind_eq_ok_iff.mpr ⟨order, rfl, bind_eq_ok_iff.mpr ⟨_, hRun, congrArg Except.ok ?_⟩⟩
    apply Nat.le_antisymm <;> rw [greatest_le_iff] <;> intro k hK <;> refine le_greatest ?_ <;>
      simpa [hPerm.mem_iff] using hK

---- Paths ----

/- A walk along wires, from node to node. -/
def Path (g : Graph K) (path : List Nat) : Prop :=
  path ≠ [] ∧ path.IsChain g.Edge ∧ ∀ n ∈ path, n ∈ g.nodeIds

namespace Distances

variable {weight d : Nat → Nat} (hDistances : g.Distances weight d)

include hDistances

theorem sum_le (hS : g.Sound) {path : List Nat} {n : Nat}
    (hChain : (path ++ [n]).IsChain g.Edge) (hM : n ∈ g.nodeIds) :
    ((path ++ [n]).map weight).sum ≤ d n := by
  induction path using List.reverseRecOn generalizing n with
  | nil => simp [hDistances n hM]
  | append_singleton path p ih =>
    have hEdge : g.Edge p n := by
      have := (isChain_append.mp hChain).2.2
      simpa using this
    have hBef := ih (isChain_append.mp hChain).1 (hS.edge_mem hEdge).1
    have hLe : d p ≤ greatest ((g.predecessors n).map d) :=
      le_greatest (mem_map_of_mem (mem_predecessors_iff.mpr hEdge))
    rw [map_append, sum_append, hDistances n hM]
    simpa using hBef.trans hLe

theorem exists_path (hS : g.Sound) (hAcy : g.Acyclic) {n : Nat} (hMem : n ∈ g.nodeIds) :
    ∃ path, g.Path (path ++ [n]) ∧ ((path ++ [n]).map weight).sum = d n := by
  induction n using (hS.wellFounded_edge hAcy).induction with
  | _ n ih =>
    by_cases hSome : (g.predecessors n).map d = []
    · refine ⟨[], ⟨by simp, by simp, by simpa using hMem⟩, ?_⟩
      rw [hDistances n hMem, hSome]
      simp [greatest]
    · rcases mem_map.mp (greatest_mem hSome) with ⟨p, hP, hGreatest⟩
      have hEdge := mem_predecessors_iff.mp hP
      rcases ih p hEdge (hS.edge_mem hEdge).1 with ⟨path, ⟨-, hChain, hNodes⟩, hSum⟩
      have hLonger := isChain_append.mpr ⟨hChain, isChain_singleton n, by simpa using hEdge⟩
      refine ⟨path ++ [p], ⟨by simp, hLonger, ?_⟩, ?_⟩
      · exact fun m hM => (mem_append.mp hM).elim (hNodes m)
          (fun hLast => mem_singleton.mp hLast ▸ hMem)
      · rw [map_append, sum_append, hSum, hDistances n hMem, ← hGreatest]
        simp

/- The greatest distance is the greatest weight of a path. -/
theorem isGreatest (hS : g.Sound) (hAcy : g.Acyclic) :
    IsGreatest {total | ∃ path, g.Path path ∧ (path.map weight).sum = total}
      (greatest (g.nodeIds.map d)) := by
  constructor
  · have hSome : g.nodeIds.map d ≠ [] := by simp [nodeIds]
    rcases mem_map.mp (greatest_mem hSome) with ⟨n, hM, hGreatest⟩
    rcases hDistances.exists_path hS hAcy hM with ⟨path, hPath, hSum⟩
    exact ⟨_, hPath, hSum.trans hGreatest⟩
  · rintro _ ⟨path, ⟨hSome, hChain, hNodes⟩, rfl⟩
    rw [← dropLast_append_getLast hSome] at hChain ⊢
    have hLast := hNodes _ (getLast_mem hSome)
    exact (hDistances.sum_le hS hChain hLast).trans (le_greatest (mem_map_of_mem hLast))

end Distances

theorem Path.nodup {path : List Nat} (hPath : g.Path path) (hAcy : g.Acyclic) : path.Nodup := by
  have hPairs : path.Pairwise (Relation.TransGen g.Edge) :=
    (hPath.2.1.imp (fun _ _ hEdge => Relation.TransGen.single hEdge)).pairwise
  refine hPairs.imp ?_
  rintro n _ hCycle rfl
  exact hAcy n hCycle

theorem Path.sum_le {path : List Nat} (hPath : g.Path path) (hAcy : g.Acyclic)
    (weight : Nat → Nat) : (path.map weight).sum ≤ (g.nodeIds.map weight).sum := by
  rcases (hPath.nodup hAcy).subperm hPath.2.2 with ⟨path', hPerm, hSub⟩
  rw [← (hPerm.map weight).sum_eq]
  exact (hSub.map weight).sum_le_sum (fun _ _ => Nat.zero_le _)

---- Weights ----

/- What a node counts: a gate counts once, and a container as much as its body does. -/
def weigh (inner : Graph K → Nat) (node : Node (Graph K)) : Nat :=
  if node.kind.isGate then 1 else (node.body.map inner).getD 0

/- What a node counts on a path. -/
def weight (g : Graph K) (n : Nat) : Nat :=
  ((g.op? n).map (weigh (fun body => body.depth.toOption.getD 0))).getD 0

theorem Intact.exists_longest (hI : g.Intact) (hF : g.WellFormed) : ∃ d, g.depth = .ok d ∧
      IsGreatest {total | ∃ path, g.Path path ∧ (path.map g.weight).sum = total} d := by
  have hS := hI.sound
  have hWeight : ∀ n, g.nodeWeight (g.nestedValues depth (.error .tooDeep)) n =
      .ok (g.weight n) := by
    intro n
    unfold nodeWeight weight
    cases hOp : g.op? n with
    | none => rfl
    | some node =>
      rcases op?_eq_some hOp with ⟨hN, rfl⟩
      simp only [hS.valueOf?_owned (fun _ => hF.owned) depth _ hN, Option.map_some,
        Option.getD_some, weigh]
      split
      · rfl
      · cases hB : node.body with
        | none => rfl
        | some body =>
          rcases (hI.body hN hB).exists_depth (hF.body hN hB) with ⟨d, hDepth⟩
          simp [hDepth, Except.toOption]
  rcases hS.exists_distances hF.acyclic hWeight with ⟨d, hDistances, hDepth⟩
  exact ⟨_, by rw [depth, foldWith_eq]; exact hDepth, hDistances.isGreatest hS hF.acyclic⟩

---- Gates ----

theorem Sound.sum_weight (hS : g.Sound) : (g.nodeIds.map g.weight).sum =
      (g.sortedOps.map (weigh (fun body => body.depth.toOption.getD 0))).sum := by
  have hNone : ∀ n, n ∉ g.opIds → g.weight n = 0 := by
    intro n hOther
    rw [weight, Option.not_isSome_iff_eq_none.mp (mt isSome_op?_iff.mp hOther)]
    rfl
  rw [nodeIds, map_cons, map_cons, sum_cons, sum_cons,
    hNone _ (fun hOp => (hS.ne_boundary hOp).1 rfl),
    hNone _ (fun hOp => (hS.ne_boundary hOp).2 rfl), ← map_id_sortedOps hS.unique, map_map,
    Nat.zero_add, Nat.zero_add]
  refine congrArg List.sum (map_congr_left (fun node hN => ?_))
  rw [Function.comp_apply, weight, hS.op?_id (mem_sortedOps_iff.mp hN)]
  rfl

theorem Sound.kinds_eq (hS : g.Sound) : g.kinds = g.ops.map Node.kind ++
      g.sortedOps.flatMap (fun node => (node.body.map kinds).getD []) := by
  rw [kinds, walk_eq, flatMap_cons, ← map_id_sortedOps hS.unique, flatMap_map, flatMap_assoc]
  refine congrArg (_ ++ ·) (flatMap_congr (fun node hN => ?_))
  rw [hS.valueOf?_bodies walk (mem_sortedOps_iff.mp hN)]
  cases node.body with
  | none => rfl
  | some body => simp [kinds, flatMap_map]

theorem Sound.gateCount_eq (hS : g.Sound) :
    g.gateCount = (g.sortedOps.map (weigh gateCount)).sum := by
  have hEach : ∀ nodes : List (Node (Graph K)), (∀ node ∈ nodes, node ∈ g.ops) →
      (nodes.map Node.kind).countP Kind.isGate +
        (nodes.flatMap (fun node => (node.body.map kinds).getD [])).countP Kind.isGate =
        (nodes.map (weigh gateCount)).sum := by
    intro nodes hNodes
    induction nodes with
    | nil => rfl
    | cons node nodes ih =>
      rw [map_cons, map_cons, flatMap_cons, countP_cons, countP_append, sum_cons,
        ← ih (fun other hM => hNodes other (mem_cons_of_mem _ hM)), weigh]
      have hN := hS.nodes node (hNodes node mem_cons_self)
      by_cases hGate : node.kind.isGate = true
      · simp only [hGate, if_true, hN.body_of_isGate hGate, Option.map_none, Option.getD_none,
          countP_nil]
        omega
      · cases node.body with
        | none => simp [hGate]
        | some body =>
          simp only [hGate, Option.map_some, Option.getD_some, gateCount]
          simp
          omega
  rw [← hEach _ (fun node hM => mem_sortedOps_iff.mp hM), gateCount, hS.kinds_eq,
    countP_append, ((g.sortedOps_perm.map Node.kind).countP_eq _)]

theorem Intact.depth_le_gateCount (hI : g.Intact) (hF : g.WellFormed) {d : Nat}
    (hDepth : g.depth = .ok d) : d ≤ g.gateCount := by
  induction hF generalizing d with
  | intro g hCom hAcy hOwned hBodies ih =>
    have hF : g.WellFormed := .intro g hCom hAcy hOwned hBodies
    rcases hI.exists_longest hF with ⟨d', hDepth', ⟨path, hPath, rfl⟩, -⟩
    obtain rfl := eq_of_ok hDepth hDepth'
    refine (hPath.sum_le hAcy _).trans ?_
    rw [hI.sound.sum_weight, hI.sound.gateCount_eq]
    refine sum_le_sum (fun node hM => ?_)
    have hN := mem_sortedOps_iff.mp hM
    unfold weigh
    split
    · exact Nat.le_refl 1
    · cases hB : node.body with
      | none => exact Nat.le_refl 0
      | some body =>
        rcases (hI.body hN hB).exists_depth (hBodies node hN body hB) with
          ⟨d, hIn⟩
        have hLe := ih node hN body hB (hI.body hN hB) hIn
        simpa [hIn, Except.toOption] using hLe

end Graph

---- Counting as a Cost ----

variable {K : Type} [Scalar K] {g : Graph K}

/- Whether natural numbers up to a bound are added exactly. -/
def Scalar.AddsUpTo (K : Type) [Scalar K] (bound : Nat) : Prop :=
  ∀ m n : Nat, m + n ≤ bound → (m : K) + (n : K) = ((m + n : Nat) : K)

theorem Cost.addUp_counts {bound : Nat} (hExact : Scalar.AddsUpTo K bound) {counts : List Nat}
    {start : Nat} (hBound : start + counts.sum ≤ bound) :
    addUp (counts.map (fun n : Nat => .ok (n : K))) start =
      .ok ((start + counts.sum : Nat) : K) := by
  induction counts generalizing start with
  | nil => rfl
  | cons n counts ih =>
    rw [sum_cons, ← Nat.add_assoc] at hBound ⊢
    rw [← ih hBound, ← hExact start n (by omega)]
    rfl

theorem Graph.Intact.eval_gates (hI : g.Intact) (hF : g.WellFormed)
    (hExact : Scalar.AddsUpTo K g.gateCount) :
    Cost.gates.eval g = .ok ((g.gateCount : Nat) : K) := by
  change Cost.sumOver (fun kind _ => .ok (Cost.unit kind.isGate)) g = _
  induction hF with
  | intro g hCom hAcy hOwned hBodies ih =>
    have hF : g.WellFormed := .intro g hCom hAcy hOwned hBodies
    have hCount := hI.sound.gateCount_eq
    have hParts : g.sortedOps.map (Cost.partOf (fun kind _ => .ok (Cost.unit kind.isGate))) =
        (g.sortedOps.map (weigh gateCount)).map (fun n => .ok (n : K)) := by
      rw [map_map]
      refine map_congr_left (fun node hM => ?_)
      have hN := mem_sortedOps_iff.mp hM
      rw [Function.comp_apply, Cost.partOf, weigh]
      cases hB : node.body with
      | none => cases hGate : node.kind.isGate <;> simp [Cost.unit]
      | some body =>
        have hOther : node.kind.isGate = false := by
          refine Bool.eq_false_iff.mpr (fun hGate => ?_)
          rw [(hI.sound.nodes node hN).body_of_isGate hGate] at hB
          cases hB
        have hLe : body.gateCount ≤ g.gateCount := by
          rw [hCount]
          refine (Nat.le_of_eq ?_).trans (single_le_sum (fun _ _ => Nat.zero_le _) _
            (mem_map_of_mem hM))
          simp [weigh, hOther, hB]
        rw [hOther, Option.map_some, Option.getD_some, ih node hN body hB
          (hI.body hN hB) (fun m n hBound => hExact m n (hBound.trans hLe))]
        rfl
    rw [Cost.sumOver_eq_addUp _ hI.sound hF, hParts, hCount]
    rw [hCount] at hExact
    have hTotal := Cost.addUp_counts hExact (Nat.le_of_eq (Nat.zero_add _))
    rwa [Nat.zero_add] at hTotal

/-
  The depth of a well-formed graph is the greatest weight of
  a path.  It is not greater than the number of gates, at all
  levels, and this number is the cost in gates.
-/
theorem depth_longest_path
    (hReach : g.Reachable)
    (hFormed : g.validate = .ok ())
    (hExact : Scalar.AddsUpTo K g.gateCount) :
    ∃ d, g.depth = .ok d ∧
      IsGreatest {total | ∃ path, g.Path path ∧ (path.map g.weight).sum = total} d ∧
      d ≤ g.gateCount ∧
      Cost.gates.eval g = .ok ((g.gateCount : Nat) : K) := by
  have hIntact := hReach.intact
  have hWell := hIntact.validate_ok_iff.mp hFormed
  rcases hIntact.exists_longest hWell with ⟨d, hDepth, hGreatest⟩
  exact ⟨d, hDepth, hGreatest, hIntact.depth_le_gateCount hWell hDepth,
    hIntact.eval_gates hWell hExact⟩

theorem depth_longest_path_inversions :
    ∃ (g : Graph ℚ) (d : Nat),
      Graph.ofCircuit (Identities.circuit 1 [(.x, [0]), (.x, [0])]) = .ok g ∧ g.depth = .ok d ∧
      IsGreatest {total | ∃ path, g.Path path ∧ (path.map g.weight).sum = total} d ∧
      d ≤ g.gateCount ∧ Cost.gates.eval g = .ok ((g.gateCount : Nat) : ℚ) := by
  rcases Identities.exists_standard_inversions with ⟨-, -, g, -, -, hGraph, hValid⟩
  rcases depth_longest_path (Graph.reachable_of_ofCircuit hGraph) hValid
    (fun m n _ => (Nat.cast_add m n).symm) with ⟨d, hDepth, hGreatest, hLe, hCost⟩
  exact ⟨g, d, hGraph, hDepth, hGreatest, hLe, hCost⟩

end CircuitGraph
