import CircuitGraph.Proofs.Graph.Essence

/-
  Graphs that differ in the names of their operations only.

  A renaming takes the operations of one graph to those of
  another one, each to one of the same kind with the same
  parameters, and keeps the two boundaries and the places of
  all wires.
-/

---- Renamings ----

namespace CircuitGraph

open List

variable {K : Type} {n : Nat} {a d : Nat × Nat}

/- Operations that may differ in their ids and within their nested graphs only. -/
structure Node.Corresponds (node node' : Node (Graph K)) : Prop where
  kind : node'.kind = node.kind
  params : Param.values node'.params = Param.values node.params
  body : node'.body.isSome = node.body.isSome
  enclosing : node'.enclosing = node.enclosing

theorem Node.Corresponds.map_body {node node' : Node (Graph K)} (hSame : node.Corresponds node')
    {α : Type} {value : Graph K → α}
    (hBodies : ∀ b b', node.body = some b → node'.body = some b' → value b' = value b) :
    node'.body.map value = node.body.map value := by
  have hSome := hSame.body
  cases hB : node.body with
  | none =>
    rw [hB, Option.isSome_none, Option.isSome_eq_false_iff, Option.isNone_iff_eq_none] at hSome
    rw [hSome]
  | some b =>
    rw [hB, Option.isSome_some] at hSome
    rcases Option.isSome_iff_exists.mp hSome with ⟨b', hB'⟩
    rw [hB', Option.map_some, Option.map_some, hBodies b b' hB hB']

namespace Graph

/- Whether a map of ids takes one level to another one. -/
structure Renames (π : Nat → Nat) (g h : Graph K) : Prop where
  boundary : h.signature = g.signature
  input : π inputId = inputId
  output : π outputId = outputId
  onto : (g.opIds.map π).Perm h.opIds
  nodes : ∀ node ∈ g.ops, ∀ node' ∈ h.ops, node'.id = π node.id → node.Corresponds node'
  wired : ∀ a d, a.1 ∈ g.nodeIds → d.1 ∈ g.nodeIds →
    (h.Wired (π a.1, a.2) (π d.1, d.2) ↔ g.Wired a d)

/- Graphs that are the same up to the ids of their operations, at every level. -/
inductive Isomorphic : Graph K → Graph K → Prop where
  | intro {g h : Graph K} (π : Nat → Nat) (renames : Renames π g h)
      (bodies : ∀ node ∈ g.ops, ∀ node' ∈ h.ops, node'.id = π node.id →
        ∀ b b', node.body = some b → node'.body = some b' → Isomorphic b b') :
      Isomorphic g h

namespace Renames

variable {π : Nat → Nat} {g h : Graph K}

section

variable (hRen : Renames π g h)

include hRen

theorem mem_opIds (hM : n ∈ g.opIds) : π n ∈ h.opIds :=
  hRen.onto.subset (mem_map_of_mem hM)

theorem exists_opId (hM : n ∈ h.opIds) : ∃ m ∈ g.opIds, π m = n :=
  mem_map.mp (hRen.onto.symm.subset hM)

theorem mem_nodeIds (hM : n ∈ g.nodeIds) : π n ∈ h.nodeIds := by
  rcases mem_nodeIds_iff.mp hM with rfl | rfl | hOp
  · exact mem_nodeIds_iff.mpr (.inl hRen.input)
  · exact mem_nodeIds_iff.mpr (.inr (.inl hRen.output))
  · exact mem_nodeIds_of_op (hRen.mem_opIds hOp)

theorem exists_nodeId (hM : n ∈ h.nodeIds) : ∃ m ∈ g.nodeIds, π m = n := by
  rcases mem_nodeIds_iff.mp hM with rfl | rfl | hOp
  · exact ⟨inputId, mem_nodeIds_iff.mpr (.inl rfl), hRen.input⟩
  · exact ⟨outputId, mem_nodeIds_iff.mpr (.inr (.inl rfl)), hRen.output⟩
  · rcases hRen.exists_opId hOp with ⟨m, hThere, rfl⟩
    exact ⟨m, mem_nodeIds_of_op hThere, rfl⟩

theorem nodeIds_perm : (g.nodeIds.map π).Perm h.nodeIds := by
  rw [nodeIds, nodeIds, map_cons, map_cons, hRen.input, hRen.output]
  exact (hRen.onto.cons _).cons _

theorem injective (hS : h.Sound) {m : Nat} (hL : n ∈ g.nodeIds) (hR : m ∈ g.nodeIds)
    (hSame : π n = π m) : n = m := by
  have hNodup : (g.nodeIds.map π).Nodup := hRen.nodeIds_perm.nodup_iff.mpr hS.nodeIds_nodup
  exact inj_on_of_nodup_map hNodup hL hR hSame

theorem exists_node {node : Node (Graph K)} (hN : node ∈ g.ops) :
    ∃ node' ∈ h.ops, node'.id = π node.id ∧ node.Corresponds node' := by
  have hM := hRen.mem_opIds (mem_opIds_of_mem hN)
  rcases mem_opIds_iff.mp hM with ⟨node', hN', hId⟩
  exact ⟨node', hN', hId, hRen.nodes node hN node' hN' hId⟩

theorem kindOf? (hS : g.Sound) (hS' : h.Sound) (hM : n ∈ g.opIds) :
    h.kindOf? (π n) = g.kindOf? n := by
  rcases mem_opIds_iff.mp hM with ⟨node, hN, rfl⟩
  rcases hRen.exists_node hN with ⟨node', hN', hId, hSame⟩
  rw [← hId, hS'.kindOf?_id hN', hS.kindOf?_id hN, hSame.kind]

theorem paramsOf (hS : g.Sound) (hS' : h.Sound) (hM : n ∈ g.opIds) :
    Param.values (h.paramsOf (π n)) = Param.values (g.paramsOf n) := by
  rcases mem_opIds_iff.mp hM with ⟨node, hN, rfl⟩
  rcases hRen.exists_node hN with ⟨node', hN', hId, hSame⟩
  rw [← hId, hS'.paramsOf_id hN', hS.paramsOf_id hN, hSame.params]

end

end Renames

---- Wires and Paths ----

variable {π : Nat → Nat} {g h : Graph K}

theorem Sound.wired_mem (hS : g.Sound) (hW : g.Wired a d) : a.1 ∈ g.nodeIds ∧ d.1 ∈ g.nodeIds :=
  hS.edge_mem hW.edge

namespace Renames

theorem wired_of (hRen : Renames π g h) (hS : g.Sound) (hW : g.Wired a d) :
    h.Wired (π a.1, a.2) (π d.1, d.2) := by
  rcases hS.wired_mem hW with ⟨hL, hR⟩
  exact (hRen.wired a d hL hR).mpr hW

theorem exists_wired (hRen : Renames π g h) (hS : h.Sound) (hW : h.Wired a d) :
    ∃ n ∈ g.nodeIds, ∃ m ∈ g.nodeIds, π n = a.1 ∧ π m = d.1 ∧ g.Wired (n, a.2) (m, d.2) := by
  rcases hS.wired_mem hW with ⟨hL, hR⟩
  rcases hRen.exists_nodeId hL with ⟨n, hN, hSrc⟩
  rcases hRen.exists_nodeId hR with ⟨m, hM, hTarget⟩
  refine ⟨n, hN, m, hM, hSrc, hTarget, (hRen.wired (n, a.2) (m, d.2) hN hM).mp ?_⟩
  rw [hSrc, hTarget]
  exact hW

theorem edge_iff (hRen : Renames π g h) {u v : Nat} (hL : u ∈ g.nodeIds)
    (hR : v ∈ g.nodeIds) : h.Edge (π u) (π v) ↔ g.Edge u v := by
  simp only [edge_iff_wired]
  constructor
  · rintro ⟨i, j, hW⟩
    exact ⟨i, j, (hRen.wired (u, i) (v, j) hL hR).mp hW⟩
  · rintro ⟨i, j, hW⟩
    exact ⟨i, j, (hRen.wired (u, i) (v, j) hL hR).mpr hW⟩

theorem exists_path (hRen : Renames π g h) (hS : h.Sound) {u w : Nat} (hM : u ∈ g.nodeIds)
    (hPath : Relation.TransGen h.Edge (π u) w) :
    ∃ v ∈ g.nodeIds, π v = w ∧ Relation.TransGen g.Edge u v := by
  induction hPath with
  | single hEdge =>
    rcases hRen.exists_nodeId (hS.edge_mem hEdge).2 with ⟨v, hV, rfl⟩
    exact ⟨v, hV, rfl, .single ((hRen.edge_iff hM hV).mp hEdge)⟩
  | tail _ hEdge ih =>
    rcases ih with ⟨x, hX, rfl, hPath⟩
    rcases hRen.exists_nodeId (hS.edge_mem hEdge).2 with ⟨v, hV, rfl⟩
    exact ⟨v, hV, rfl, hPath.tail ((hRen.edge_iff hX hV).mp hEdge)⟩

end Renames

end Graph

end CircuitGraph
