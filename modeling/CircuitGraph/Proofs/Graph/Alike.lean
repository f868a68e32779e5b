import CircuitGraph.Proofs.Graph.WellFormed

/-
  Graphs up to version and ranks, and levels built from parts.

  Version and ranks are kept for later searches; nothing that
  a graph means depends on them.
-/

---- Graphs without Version and Ranks ----

namespace CircuitGraph

open List

variable {keep : Nat → Bool}

namespace Graph

variable {K : Type}

def bare (g : Graph K) : Graph K :=
  { g with index := .empty, version := 0, ranks := none, unranked := [], rankedAs := [] }

def Alike (g g' : Graph K) : Prop :=
  g.bare = g'.bare

namespace Alike

variable {g g' g'' : Graph K}

theorem refl (g : Graph K) : g.Alike g :=
  rfl

theorem symm (hA : g.Alike g') : g'.Alike g :=
  Eq.symm hA

theorem trans (hL : g.Alike g') (hR : g'.Alike g'') : g.Alike g'' :=
  Eq.trans hL hR

theorem of_parts (hInputs : g'.inputs = g.inputs) (hOuts : g'.outputs = g.outputs)
    (hOps : g'.ops = g.ops) (hWires : g'.wires = g.wires) (hNext : g'.nextId = g.nextId) :
    g.Alike g' := by
  simp [Alike, bare, hInputs, hOuts, hOps, hWires, hNext]

section

variable (hA : g.Alike g')

include hA

theorem congr {α : Type} (f : Graph K → α) (hBare : ∀ g, f g.bare = f g) : f g' = f g := by
  rw [← hBare g', ← hBare g, hA]

theorem inputs : g'.inputs = g.inputs :=
  hA.congr Graph.inputs (fun _ => rfl)

theorem outputs : g'.outputs = g.outputs :=
  hA.congr Graph.outputs (fun _ => rfl)

theorem ops : g'.ops = g.ops :=
  hA.congr Graph.ops (fun _ => rfl)

theorem wires : g'.wires = g.wires :=
  hA.congr Graph.wires (fun _ => rfl)

theorem nextId : g'.nextId = g.nextId :=
  hA.congr Graph.nextId (fun _ => rfl)

theorem signature : g'.signature = g.signature :=
  hA.congr Graph.signature (fun _ => rfl)

theorem nodeIds : g'.nodeIds = g.nodeIds :=
  hA.congr Graph.nodeIds (fun _ => rfl)

theorem outType? (place : Nat × Nat) : g'.outType? place = g.outType? place :=
  hA.congr (fun g => Graph.outType? g place) (fun _ => rfl)

theorem inType? (place : Nat × Nat) : g'.inType? place = g.inType? place :=
  hA.congr (fun g => Graph.inType? g place) (fun _ => rfl)

theorem wired_iff {src dst : Nat × Nat} : g'.Wired src dst ↔ g.Wired src dst := by
  rw [Wired, Wired, hA.wires]

theorem edge_iff {u v : Nat} : g'.Edge u v ↔ g.Edge u v := by
  rw [Edge, Edge, hA.wires]

theorem acyclic (hAcy : g.Acyclic) : g'.Acyclic := by
  have hEdge : g'.Edge = g.Edge := by
    funext u v
    exact propext hA.edge_iff
  rwa [Acyclic, hEdge]

end

end Alike

variable {g g' : Graph K}

theorem Sound.of_alike (hS : g.Sound) (hA : g.Alike g') : g'.Sound where
  nodes := by rw [hA.ops]; exact hS.nodes
  unique := by rw [hA.ops]; exact hS.unique
  operation := by rw [hA.ops]; exact hS.operation
  issued := by rw [hA.ops, hA.nextId]; exact hS.issued
  started := by rw [hA.nextId]; exact hS.started
  typed := by
    intro w hM
    rw [hA.wires] at hM
    rw [hA.outType?, hA.inType?]
    exact hS.typed w hM
  single := by rw [hA.wires]; exact hS.single
  linear := by
    intro v hL w hR hSrc hType
    rw [hA.wires] at hL hR
    rw [hA.outType?] at hType
    exact hS.linear v hL w hR hSrc hType

theorem Intact.of_alike (hI : g.Intact) (hA : g.Alike g') : g'.Intact := by
  refine .intro g' (hI.sound.of_alike hA) ?_
  rw [hA.ops]
  exact fun node hN body hB => hI.body hN hB

theorem Complete.of_alike (hCom : g.Complete) (hA : g.Alike g') : g'.Complete where
  fed := by
    intro place t hType
    rw [hA.inType?] at hType
    rcases hCom.fed place t hType with ⟨src, hW⟩
    exact ⟨src, hA.wired_iff.mpr hW⟩
  used := by
    intro place t hType hLin
    rw [hA.outType?] at hType
    rcases hCom.used place t hType hLin with ⟨dst, hW⟩
    exact ⟨dst, hA.wired_iff.mpr hW⟩

theorem WellFormed.of_alike (hF : g.WellFormed) (hA : g.Alike g') : g'.WellFormed := by
  refine .intro g' (hF.complete.of_alike hA) (hA.acyclic hF.acyclic) ?_ ?_
  · rw [hA.ops]
    exact fun node hN => hF.owned hN
  · rw [hA.ops]
    exact fun node hN body hB => hF.body hN hB

---- Levels from Parts ----

theorem signatureOf_append {n : Nat} (hM : n ∈ g.nodeIds) (more : List (Node (Graph K))) :
    ({ g with ops := g.ops ++ more } : Graph K).signatureOf n = g.signatureOf n := by
  unfold signatureOf signatureOf?
  split
  · rfl
  · split
    · rfl
    · rename_i hInput hOutp
      have hOp : n ∈ g.opIds := by
        rcases mem_nodeIds_iff.mp hM with h | h | h
        · exact absurd h hInput
        · exact absurd h hOutp
        · exact h
      rcases Option.isSome_iff_exists.mp (isSome_op?_iff.mpr hOp) with ⟨node, hN⟩
      have hFnd : ({ g with ops := g.ops ++ more } : Graph K).op? n = some node := by
        unfold op? at hN ⊢
        rw [find?_append, hN]
        rfl
      rw [hFnd, hN]

theorem signatureOf_filter {n : Nat} (hKeep : keep n = true) :
    ({ g with ops := g.ops.filter (fun node => keep node.id) } : Graph K).signatureOf n =
      g.signatureOf n := by
  have hFnd : ({ g with ops := g.ops.filter (fun node => keep node.id) } : Graph K).op? n =
      g.op? n := by
    unfold op?
    rw [find?_filter]
    congr 1
    funext node
    by_cases hId : node.id = n <;> simp [hId, hKeep]
  unfold signatureOf signatureOf?
  rw [hFnd]

theorem outType?_filter {place : Nat × Nat} (hKeep : keep place.1 = true) :
    ({ g with ops := g.ops.filter (fun node => keep node.id) } : Graph K).outType? place =
      g.outType? place := by
  rw [outType?, signatureOf_filter hKeep, outType?]

theorem inType?_filter {place : Nat × Nat} (hKeep : keep place.1 = true) :
    ({ g with ops := g.ops.filter (fun node => keep node.id) } : Graph K).inType? place =
      g.inType? place := by
  rw [inType?, signatureOf_filter hKeep, inType?]

namespace Sound

theorem raiseNextId (hS : g.Sound) {next : Nat} (hNext : g.nextId ≤ next) :
    ({ g with nextId := next } : Graph K).Sound :=
  { hS with
    issued := fun node hN => Nat.lt_of_lt_of_le (hS.issued node hN) hNext
    started := Nat.lt_of_lt_of_le hS.started hNext }

theorem appendOp (hS : g.Sound) {node : Node (Graph K)} (hN : node.Sound)
    (hOp : isOpId node.id = true) (hIssued : node.id < g.nextId)
    (hFresh : node.id ∉ g.ops.map Node.id) :
    ({ g with ops := g.ops ++ [node] } : Graph K).Sound where
  nodes := by
    intro other hM
    rcases mem_append.mp hM with hOld | hNew
    · exact hS.nodes other hOld
    · rwa [mem_singleton.mp hNew]
  unique := by
    rw [map_append, map_cons, map_nil, nodup_append]
    refine ⟨hS.unique, by simp, ?_⟩
    intro n hOld m hNew hEq
    rw [mem_singleton] at hNew
    exact hFresh (hNew ▸ hEq ▸ hOld)
  operation := by
    intro other hM
    rcases mem_append.mp hM with hOld | hNew
    · exact hS.operation other hOld
    · rwa [mem_singleton.mp hNew]
  issued := by
    intro other hM
    rcases mem_append.mp hM with hOld | hNew
    · exact hS.issued other hOld
    · rwa [mem_singleton.mp hNew]
  started := hS.started
  typed := by
    intro w hM
    rcases hS.typed w hM with ⟨t, hOut, hIn⟩
    refine ⟨t, ?_, ?_⟩
    · rw [outType?, signatureOf_append (mem_nodeIds_of_outType? hOut)]
      exact hOut
    · rw [inType?, signatureOf_append (mem_nodeIds_of_inType? hIn)]
      exact hIn
  single := hS.single
  linear := by
    intro v hL w hR hSrc hType
    rcases hS.typed v hL with ⟨t, hOut, -⟩
    rw [outType?, signatureOf_append (mem_nodeIds_of_outType? hOut)] at hType
    exact hS.linear v hL w hR hSrc hType

theorem restrictWires (hS : g.Sound) {ws : List Wire} (hSub : ws.Sublist g.wires) :
    ({ g with wires := ws } : Graph K).Sound :=
  { hS with
    typed := fun w hM => hS.typed w (hSub.subset hM)
    single := hS.single.sublist (hSub.map _)
    linear := fun v hL w hR => hS.linear v (hSub.subset hL) w (hSub.subset hR) }

theorem filterOps (hS : g.Sound) (keep : Nat → Bool)
    (hWires : ∀ w ∈ g.wires, keep w.src.node = true ∧ keep w.dst.node = true) :
    ({ g with ops := g.ops.filter (fun node => keep node.id) } : Graph K).Sound where
  nodes := fun node hM => hS.nodes node (mem_filter.mp hM).1
  unique := hS.unique.sublist (filter_sublist.map _)
  operation := fun node hM => hS.operation node (mem_filter.mp hM).1
  issued := fun node hM => hS.issued node (mem_filter.mp hM).1
  started := hS.started
  typed := by
    intro w hM
    have hKeep := hWires w hM
    rcases hS.typed w hM with ⟨t, hOut, hIn⟩
    exact ⟨t, (outType?_filter hKeep.1).trans hOut, (inType?_filter hKeep.2).trans hIn⟩
  single := hS.single
  linear := by
    intro v hL w hR hSrc hType
    rw [outType?_filter (hWires v hL).1] at hType
    exact hS.linear v hL w hR hSrc hType

theorem appendWire (hS : g.Sound) {w : Wire} {t : WireType}
    (hOut : g.outType? w.src.place = some t) (hIn : g.inType? w.dst.place = some t)
    (hFree : ∀ v ∈ g.wires, v.dst.place ≠ w.dst.place)
    (hLin : t ≠ .bool → ∀ v ∈ g.wires, v.src.place ≠ w.src.place) :
    ({ g with wires := g.wires ++ [w] } : Graph K).Sound :=
  { hS with
    typed := by
      intro v hM
      rcases mem_append.mp hM with hOld | hNew
      · exact hS.typed v hOld
      · rw [mem_singleton.mp hNew]
        exact ⟨t, hOut, hIn⟩
    single := by
      rw [map_append, map_cons, map_nil, nodup_append]
      refine ⟨hS.single, by simp, ?_⟩
      intro a hOld b hNew hEq
      rcases mem_map.mp hOld with ⟨v, hM, rfl⟩
      rw [mem_singleton] at hNew
      exact hFree v hM (hEq.trans hNew)
    linear := by
      intro u hL v hR hSrc hType
      have hNotBool : u.src.place = w.src.place → t ≠ .bool := by
        rintro hEq rfl
        exact hType (hEq ▸ hOut)
      rcases mem_append.mp hL with hOldU | hNewU <;> rcases mem_append.mp hR with hOldV | hNewV
      · exact hS.linear u hOldU v hOldV hSrc hType
      · obtain rfl := mem_singleton.mp hNewV
        exact absurd hSrc (hLin (hNotBool hSrc) u hOldU)
      · obtain rfl := mem_singleton.mp hNewU
        exact absurd hSrc.symm (hLin (hNotBool rfl) v hOldV)
      · rw [mem_singleton.mp hNewU, mem_singleton.mp hNewV] }

end Sound

end Graph

end CircuitGraph
