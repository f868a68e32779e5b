import CircuitGraph.Proofs.Graph.Fingerprint

/-
  Graphs whose operations are numbered anew.

  At every level the operations get the numbers from two on,
  in the order that they have.
-/

---- Renumbered Parts ----

namespace CircuitGraph

open List

variable {n m : Nat}

def Pin.renumber (π : Nat → Nat) (p : Pin) : Pin :=
  ⟨.number (π p.node), p.slot⟩

def Wire.renumber (π : Nat → Nat) (w : Wire) : Wire :=
  ⟨w.src.renumber π, w.dst.renumber π⟩

def Node.renew {K : Type} (π : Nat → Nat) (body : Option (Graph K)) (node : Node (Graph K)) :
    Node (Graph K) :=
  ⟨π node.id, node.kind, node.params.map (fun p => ⟨p.value, true⟩), body, none⟩

---- Numbers in Order ----

theorem idxOf_lt_iff {ns : List Nat} (hAsc : ns.Pairwise (· < ·)) (hL : n ∈ ns)
    (hR : m ∈ ns) : ns.idxOf n < ns.idxOf m ↔ n < m := by
  have hOrder : ∀ {a b}, a ∈ ns → b ∈ ns → ns.idxOf a < ns.idxOf b → a < b := by
    intro a b hA hB hLt
    have hBoth := pairwise_iff_getElem.mp hAsc _ _ (idxOf_lt_length_of_mem hA)
      (idxOf_lt_length_of_mem hB) hLt
    simpa using hBoth
  refine ⟨hOrder hL hR, fun hLt => ?_⟩
  rcases Nat.lt_trichotomy (ns.idxOf n) (ns.idxOf m) with hBef | hSame | hAfter
  · exact hBef
  · have hEq := (idxOf_inj hL).mp hSame
    exact absurd hEq (Nat.ne_of_lt hLt)
  · exact absurd (hOrder hR hL hAfter) (Nat.lt_asymm hLt)

namespace Graph

variable {K : Type} {g : Graph K} {body : Option (Graph K)}

/- The numbers of the nodes when the operations are numbered anew in their order, from two on. -/
def newId (g : Graph K) (n : Nat) : Nat :=
  if isOpId n then g.opIds.idxOf n + 2 else n

@[simp] theorem newId_inputId (g : Graph K) : g.newId inputId = inputId := rfl

@[simp] theorem newId_outputId (g : Graph K) : g.newId outputId = outputId := rfl

namespace Sound

theorem newId_of_mem (hS : g.Sound) (hM : n ∈ g.opIds) : g.newId n = g.opIds.idxOf n + 2 :=
  if_pos (hS.isOpId_of_mem_opIds hM)

theorem newId_le (hS : g.Sound) (hM : n ∈ g.opIds) : g.newId n ≤ n := by
  have hAll : ∀ i (hLt : i < g.opIds.length), i + 2 ≤ g.opIds[i] := by
    intro i hLt
    induction i with
    | zero => exact of_decide_eq_true (hS.isOpId_of_mem_opIds (getElem_mem hLt))
    | succ i ih =>
      have hAsc : g.opIds.Pairwise (· < ·) := sortIds_pairwise _
      have hNext := pairwise_iff_getElem.mp hAsc i (i + 1) (by omega) hLt (by omega)
      exact Nat.succ_le_of_lt (Nat.lt_of_le_of_lt (ih (by omega)) hNext)
  have hLt := idxOf_lt_length_of_mem hM
  rw [hS.newId_of_mem hM]
  exact (hAll _ hLt).trans (getElem_idxOf hLt).le

theorem newId_lt_iff (hS : g.Sound) (hL : n ∈ g.nodeIds) (hR : m ∈ g.nodeIds) :
    g.newId n < g.newId m ↔ n < m := by
  have hOp : ∀ {k}, isOpId k = true ↔ 1 < k := decide_eq_true_iff
  by_cases hN : isOpId n = true
  · have hMemN := (hS.mem_opIds_iff_isOpId hL).mpr hN
    by_cases hM : isOpId m = true
    · have hMemM := (hS.mem_opIds_iff_isOpId hR).mpr hM
      rw [hS.newId_of_mem hMemN, hS.newId_of_mem hMemM, Nat.add_lt_add_iff_right]
      exact idxOf_lt_iff (sortIds_pairwise _) hMemN hMemM
    · rw [newId, newId, if_pos hN, if_neg hM]
      rw [hOp] at hN hM
      omega
  · by_cases hM : isOpId m = true
    · rw [newId, newId, if_neg hN, if_pos hM]
      rw [hOp] at hN hM
      omega
    · rw [newId, newId, if_neg hN, if_neg hM]

theorem newId_inj (hS : g.Sound) (hL : n ∈ g.nodeIds) (hR : m ∈ g.nodeIds) :
    g.newId n = g.newId m ↔ n = m := by
  have hBelow := hS.newId_lt_iff hL hR
  have hAbove := hS.newId_lt_iff hR hL
  omega

theorem map_newId_opIds (hS : g.Sound) : g.opIds.map g.newId = List.range' 2 g.ops.length := by
  refine ext_getElem (by simp [hS.length_opIds]) (fun i hL hR => ?_)
  have hLt : i < g.opIds.length := by simpa using hL
  rw [getElem_map, hS.newId_of_mem (getElem_mem hLt), getElem_range', (opIds_nodup g).idxOf_getElem]
  omega

end Sound

---- Levels Made Anew ----

def made (inputs outputs : List WireType) (ops : List (Node (Graph K))) (wires : List Wire) :
    Graph K :=
  { Graph.empty inputs outputs with
    ops := ops
    wires := wires
    index := .ofWires wires
    nextId := ops.length + 2
    version := ops.length + wires.length + 2 }

def renewWith (inner : Node (Graph K) → Option (Graph K)) (g : Graph K) : Graph K :=
  made g.inputs g.outputs (g.sortedOps.map (fun node => node.renew g.newId (inner node)))
    (g.sortedWires.map (Wire.renumber g.newId))

def renewed (g : Graph K) : Graph K :=
  g.fold (fun g bodies => g.renewWith (fun node => valueOf? bodies node.id))

theorem renewed_eq (hUniq : (g.ops.map Node.id).Nodup) :
    g.renewed = g.renewWith (fun node => node.body.map renewed) := by
  have hFold : g.renewed = g.renewWith (fun node => valueOf?
      (g.bodyValues renewed) node.id) := fold_eq _ g
  rw [hFold, renewWith, renewWith]
  congr 1
  refine map_congr_left (fun node hN => ?_)
  rw [valueOf?_map_bodies hUniq renewed (mem_sortedOps_iff.mp hN)]

variable {inner : Node (Graph K) → Option (Graph K)}

theorem id_mem_nodeIds {node : Node (Graph K)} (hN : node ∈ g.ops) : node.id ∈ g.nodeIds :=
  mem_nodeIds_of_op (mem_opIds_of_mem hN)

theorem map_id_renewWith (hS : g.Sound) :
    (g.renewWith inner).ops.map Node.id = List.range' 2 g.ops.length := by
  rw [← hS.map_newId_opIds, ← map_id_sortedOps hS.unique, map_map]
  change (g.sortedOps.map _).map _ = _
  rw [map_map]
  rfl

theorem mem_ops_renewWith_iff {node' : Node (Graph K)} :
    node' ∈ (g.renewWith inner).ops ↔ ∃ node ∈ g.ops, node' = node.renew g.newId (inner node) := by
  change node' ∈ g.sortedOps.map _ ↔ _
  rw [mem_map]
  simp only [mem_sortedOps_iff, eq_comm]

theorem mem_wires_renewWith_iff {w' : Wire} :
    w' ∈ (g.renewWith inner).wires ↔ ∃ w ∈ g.wires, w' = w.renumber g.newId := by
  change w' ∈ g.sortedWires.map _ ↔ _
  rw [mem_map]
  simp only [sortedWires, mem_mergeSort, eq_comm]

theorem unique_renewWith (hS : g.Sound) : ((g.renewWith inner).ops.map Node.id).Nodup := by
  rw [map_id_renewWith hS]
  exact nodup_range'

theorem opIds_renewWith (hS : g.Sound) :
    (g.renewWith inner).opIds = List.range' 2 g.ops.length := by
  rw [opIds, map_id_renewWith hS]
  exact sortIds_of_pairwise pairwise_lt_range'

theorem exists_of_mem_nodeIds_renewWith (hM : m ∈ (g.renewWith inner).nodeIds) :
    ∃ n ∈ g.nodeIds, g.newId n = m := by
  rcases mem_nodeIds_iff.mp hM with rfl | rfl | hOp
  · exact ⟨inputId, mem_nodeIds_iff.mpr (.inl rfl), rfl⟩
  · exact ⟨outputId, mem_nodeIds_iff.mpr (.inr (.inl rfl)), rfl⟩
  · rcases mem_opIds_iff.mp hOp with ⟨node', hN', rfl⟩
    rcases mem_ops_renewWith_iff.mp hN' with ⟨node, hN, rfl⟩
    exact ⟨node.id, id_mem_nodeIds hN, rfl⟩

theorem boundary?_of_owned {node : Node (Graph K)} (hOwned : node.enclosing = none) :
    node.boundary? = node.body.map Graph.signature := by
  unfold Node.boundary?
  split <;> simp_all

section

variable {node : Node (Graph K)} (hOwned : node.enclosing = none)
  (hB : body.map Graph.signature = node.body.map Graph.signature)

include hOwned hB

theorem boundary?_renew (π : Nat → Nat) : (node.renew π body).boundary? = node.boundary? := by
  rw [boundary?_of_owned hOwned, ← hB]
  exact boundary?_of_owned rfl

theorem signature_renew (π : Nat → Nat) : (node.renew π body).signature = node.signature := by
  rw [Node.signature, Node.signature, boundary?_renew hOwned hB]
  rfl

end

theorem sound_renew {node : Node (Graph K)} (hN : node.Sound) (hOwned : node.enclosing = none)
    (hB : body.map Graph.signature = node.body.map Graph.signature) (π : Nat → Nat) :
    (node.renew π body).Sound where
  inner := hN.inner
  params := (length_map _).trans hN.params
  body := by
    rw [Node.hasBody, boundary?_renew hOwned hB]
    exact hN.body
  owned := .inr rfl

variable (hS : g.Sound) (hOwned : ∀ node ∈ g.ops, node.enclosing = none)
variable (hInner : ∀ node ∈ g.ops,
  (inner node).map Graph.signature = node.body.map Graph.signature)

include hS hOwned hInner

theorem sound_renewWith_unwired : ({ g.renewWith inner with wires := [] } : Graph K).Sound where
  nodes node' hN' := by
    rcases mem_ops_renewWith_iff.mp hN' with ⟨node, hN, rfl⟩
    exact sound_renew (hS.nodes node hN) (hOwned node hN) (hInner node hN) _
  unique := unique_renewWith hS
  operation node' hN' := by
    have hM : node'.id ∈ (g.renewWith inner).ops.map Node.id := mem_map_of_mem hN'
    rw [map_id_renewWith hS, mem_range'_1] at hM
    exact decide_eq_true (show outputId < node'.id from hM.1)
  issued node' hN' := by
    have hM : node'.id ∈ (g.renewWith inner).ops.map Node.id := mem_map_of_mem hN'
    rw [map_id_renewWith hS, mem_range'_1] at hM
    have hLen : (g.renewWith inner).ops.length = g.ops.length := by
      rw [← length_map (f := Node.id), map_id_renewWith hS, length_range']
    change node'.id < (g.renewWith inner).ops.length + 2
    omega
  started := by
    change 1 < (g.renewWith inner).ops.length + 2
    omega
  typed := by simp
  single := nodup_nil
  linear := by simp

theorem signatureOf_renewWith (hM : n ∈ g.nodeIds) :
    (g.renewWith inner).signatureOf (g.newId n) = g.signatureOf n := by
  rcases mem_nodeIds_iff.mp hM with rfl | rfl | hOp
  · rfl
  · rfl
  · rcases mem_opIds_iff.mp hOp with ⟨node, hN, rfl⟩
    have hLevel := sound_renewWith_unwired hS hOwned hInner
    have hHere := hLevel.signatureOf_id (mem_ops_renewWith_iff.mpr ⟨node, hN, rfl⟩)
    rw [signature_renew (hOwned node hN) (hInner node hN)] at hHere
    exact hHere.trans (hS.signatureOf_id hN).symm

theorem outType?_renewWith (hM : n ∈ g.nodeIds) (i : Nat) :
    (g.renewWith inner).outType? (g.newId n, i) = g.outType? (n, i) := by
  rw [outType?, outType?, signatureOf_renewWith hS hOwned hInner hM]

theorem inType?_renewWith (hM : n ∈ g.nodeIds) (i : Nat) :
    (g.renewWith inner).inType? (g.newId n, i) = g.inType? (n, i) := by
  rw [inType?, inType?, signatureOf_renewWith hS hOwned hInner hM]

theorem sound_renewWith : (g.renewWith inner).Sound := by
  have hEnds := fun w (hM : w ∈ g.wires) => hS.edge_mem ⟨w, hM, rfl, rfl⟩
  refine { sound_renewWith_unwired hS hOwned hInner with
    typed := ?_, single := ?_, linear := ?_ }
  · intro w' hM'
    rcases mem_wires_renewWith_iff.mp hM' with ⟨w, hM, rfl⟩
    rcases hS.typed w hM with ⟨t, hOut, hIn⟩
    refine ⟨t, ?_, ?_⟩
    · exact (outType?_renewWith hS hOwned hInner (hEnds w hM).1 _).trans hOut
    · exact (inType?_renewWith hS hOwned hInner (hEnds w hM).2 _).trans hIn
  · change ((g.sortedWires.map _).map _).Nodup
    rw [map_map]
    have hPerm : g.sortedWires.Perm g.wires := mergeSort_perm _ _
    have hSingle := (hPerm.map (fun w => w.dst.place)).nodup_iff.mpr hS.single
    refine List.Nodup.map_on ?_ (List.Nodup.of_map _ hSingle)
    intro v hV w hW hSame
    have hV' := hPerm.mem_iff.mp hV
    have hW' := hPerm.mem_iff.mp hW
    rcases Prod.mk.inj hSame with ⟨hN, hIndex⟩
    have hDst : v.dst.place = w.dst.place :=
      Prod.ext ((hS.newId_inj (hEnds v hV').2 (hEnds w hW').2).mp hN) hIndex
    exact inj_on_of_nodup_map hS.single hV' hW' hDst
  · intro v' hV' w' hW' hSrc hType
    rcases mem_wires_renewWith_iff.mp hV' with ⟨v, hV, rfl⟩
    rcases mem_wires_renewWith_iff.mp hW' with ⟨w, hW, rfl⟩
    rcases Prod.mk.inj hSrc with ⟨hN, hIndex⟩
    have hSame : v.src.place = w.src.place :=
      Prod.ext ((hS.newId_inj (hEnds v hV).1 (hEnds w hW).1).mp hN) hIndex
    have hOut := outType?_renewWith hS hOwned hInner (hEnds v hV).1 v.src.index
    have hLin : g.outType? v.src.place ≠ some .bool := fun hBool => hType (hOut.trans hBool)
    rw [hS.linear v hV w hW hSame hLin]

theorem renames_renewWith : Renames g.newId g (g.renewWith inner) where
  boundary := rfl
  input := rfl
  output := rfl
  onto := .of_eq (hS.map_newId_opIds.trans (opIds_renewWith hS).symm)
  nodes node hN node' hN' hId := by
    rcases mem_ops_renewWith_iff.mp hN' with ⟨other, hOther, rfl⟩
    have hSame := (hS.newId_inj (id_mem_nodeIds hOther) (id_mem_nodeIds hN)).mp hId
    obtain rfl := eq_of_key_eq hS.unique hOther hN hSame
    refine ⟨rfl, ?_, ?_, (hOwned other hN).symm⟩
    · simp [Node.renew, Param.values]
    · change (inner other).isSome = other.body.isSome
      simpa using congrArg Option.isSome (hInner other hN)
  wired := by
    rintro ⟨a, i⟩ ⟨d, j⟩ hSrc hDst
    constructor
    · rintro ⟨w', hM', hA, hD⟩
      rcases mem_wires_renewWith_iff.mp hM' with ⟨w, hM, rfl⟩
      rcases hS.edge_mem ⟨w, hM, rfl, rfl⟩ with ⟨hSrc', hDst'⟩
      rcases Prod.mk.inj hA with ⟨hN, hIndex⟩
      rcases Prod.mk.inj hD with ⟨hN', hIndex'⟩
      refine ⟨w, hM, Prod.ext ?_ hIndex, Prod.ext ?_ hIndex'⟩
      · exact (hS.newId_inj hSrc' hSrc).mp hN
      · exact (hS.newId_inj hDst' hDst).mp hN'
    · rintro ⟨w, hM, hA, hD⟩
      rcases Prod.mk.inj hA with ⟨hN, hIndex⟩
      rcases Prod.mk.inj hD with ⟨hN', hIndex'⟩
      refine ⟨_, mem_wires_renewWith_iff.mpr ⟨w, hM, rfl⟩, ?_, ?_⟩
      · exact Prod.ext (congrArg g.newId hN) hIndex
      · exact Prod.ext (congrArg g.newId hN') hIndex'

theorem source?_renewWith (hM : n ∈ g.nodeIds) (i : Nat) :
    (g.renewWith inner).source? (g.newId n) i = (g.source? n i).map (Pin.renumber g.newId) := by
  have hNew := sound_renewWith hS hOwned hInner
  cases hSrc : g.source? n i with
  | some p =>
    rcases hS.source?_iff.mp hSrc with ⟨w, hWire, rfl, hDst⟩
    rcases Prod.mk.inj hDst with ⟨rfl, rfl⟩
    exact hNew.source?_iff.mpr ⟨_, mem_wires_renewWith_iff.mpr ⟨w, hWire, rfl⟩, rfl, rfl⟩
  | none =>
    cases hSrc' : (g.renewWith inner).source? (g.newId n) i with
    | none => rfl
    | some q =>
      rcases hNew.source?_iff.mp hSrc' with ⟨w', hWire', rfl, hDst⟩
      rcases mem_wires_renewWith_iff.mp hWire' with ⟨w, hWire, rfl⟩
      rcases Prod.mk.inj hDst with ⟨hN, hIndex⟩
      have hEnd := (hS.edge_mem ⟨w, hWire, rfl, rfl⟩).2
      have hPlace : w.dst.place = (n, i) :=
        Prod.ext ((hS.newId_inj hEnd hM).mp hN) hIndex
      rw [hS.source?_iff.mpr ⟨w, hWire, rfl, hPlace⟩] at hSrc
      cases hSrc

theorem spelledAlike_renewWith : SpelledAlike g.newId g (g.renewWith inner) := by
  intro n hM i
  rw [source?_renewWith hS hOwned hInner hM, Option.map_map]
  rfl

theorem complete_renewWith (hCom : g.Complete) : (g.renewWith inner).Complete where
  fed := by
    rintro ⟨n', i⟩ t hType
    rcases exists_of_mem_nodeIds_renewWith (mem_nodeIds_of_inType? hType) with ⟨n, hM, rfl⟩
    rw [inType?_renewWith hS hOwned hInner hM] at hType
    rcases hCom.fed (n, i) t hType with ⟨src, hW⟩
    exact ⟨_, (renames_renewWith hS hOwned hInner).wired_of hS hW⟩
  used := by
    rintro ⟨n', i⟩ t hType hLin
    rcases exists_of_mem_nodeIds_renewWith (mem_nodeIds_of_outType? hType) with ⟨n, hM, rfl⟩
    rw [outType?_renewWith hS hOwned hInner hM] at hType
    rcases hCom.used (n, i) t hType hLin with ⟨dst, hW⟩
    exact ⟨_, (renames_renewWith hS hOwned hInner).wired_of hS hW⟩

theorem acyclic_renewWith (hAcy : g.Acyclic) : (g.renewWith inner).Acyclic := by
  have hRen := renames_renewWith hS hOwned hInner
  have hNew := sound_renewWith hS hOwned hInner
  intro n' hCycle
  have hM' : n' ∈ (g.renewWith inner).nodeIds := by
    rcases Relation.TransGen.head'_iff.mp hCycle with ⟨m, hEdge, -⟩
    exact (hNew.edge_mem hEdge).1
  rcases exists_of_mem_nodeIds_renewWith hM' with ⟨n, hM, rfl⟩
  rcases hRen.exists_path hNew hM hCycle with ⟨m, hM', hSame, hPath⟩
  obtain rfl := (hS.newId_inj hM' hM).mp hSame
  exact hAcy m hPath

omit hOwned hInner in
theorem sortedOps_renewWith : (g.renewWith inner).sortedOps = (g.renewWith inner).ops := by
  have hAsc : ((g.renewWith inner).ops.map Node.id).Pairwise (· < ·) := by
    rw [map_id_renewWith hS]
    exact pairwise_lt_range'
  refine mergeSort_of_pairwise ?_
  refine (pairwise_map.mp hAsc).imp (fun hLt => ?_)
  simpa using Nat.le_of_lt hLt

omit hOwned hInner in
theorem sortedWires_renewWith : (g.renewWith inner).sortedWires = (g.renewWith inner).wires := by
  refine mergeSort_of_pairwise ?_
  change (g.sortedWires.map _).Pairwise _
  rw [pairwise_map]
  refine g.sortedWires_pairwise.imp_of_mem ?_
  intro v w hV hW hBef
  rcases hS.edge_mem ⟨v, mem_mergeSort.mp hV, rfl, rfl⟩ with ⟨hSrcV, hDstV⟩
  rcases hS.edge_mem ⟨w, mem_mergeSort.mp hW, rfl, rfl⟩ with ⟨hSrcW, hDstW⟩
  rw [Wire.before_iff] at hBef ⊢
  change g.newId v.src.node < g.newId w.src.node ∨ g.newId v.src.node = g.newId w.src.node ∧
    (v.src.index < w.src.index ∨ v.src.index = w.src.index ∧
      (g.newId v.dst.node < g.newId w.dst.node ∨ g.newId v.dst.node = g.newId w.dst.node ∧
        v.dst.index ≤ w.dst.index))
  rwa [hS.newId_lt_iff hSrcV hSrcW, hS.newId_inj hSrcV hSrcW,
    hS.newId_lt_iff hDstV hDstW, hS.newId_inj hDstV hDstW]

omit hS hOwned hInner in
theorem newId_of_numbered {h : Graph K} {k i : Nat} (hIds : h.opIds = List.range' 2 k)
    (hLt : i < k) : h.newId (i + 2) = i + 2 := by
  have hIndex := (nodup_range' (s := 2) (n := k)).idxOf_getElem i (by simpa using hLt)
  rw [getElem_range', Nat.one_mul, Nat.add_comm] at hIndex
  rw [newId, hIds, hIndex]
  split <;> rfl

omit hOwned hInner in
theorem newId_renewWith (hM : n ∈ g.nodeIds) :
    (g.renewWith inner).newId (g.newId n) = g.newId n := by
  rcases mem_nodeIds_iff.mp hM with rfl | rfl | hOp
  · rfl
  · rfl
  · rw [hS.newId_of_mem hOp]
    refine newId_of_numbered (opIds_renewWith hS) ?_
    rw [← hS.length_opIds]
    exact idxOf_lt_length_of_mem hOp

omit hOwned hInner in
/- A level made anew a second time stays as it is if its bodies do. -/
theorem renewWith_renewWith {again : Node (Graph K) → Option (Graph K)}
    (hAgain : ∀ node ∈ g.ops, again (node.renew g.newId (inner node)) = inner node) :
    (g.renewWith inner).renewWith again = g.renewWith inner := by
  have hOps : ∀ node ∈ g.ops, (node.renew g.newId (inner node)).renew (g.renewWith inner).newId
      (again (node.renew g.newId (inner node))) = node.renew g.newId (inner node) := by
    intro node hN
    have hId : (g.renewWith inner).newId (g.newId node.id) = g.newId node.id :=
      newId_renewWith hS (id_mem_nodeIds hN)
    rw [hAgain node hN]
    simp [Node.renew, hId]
  have hWires : ∀ w ∈ g.wires,
      (w.renumber g.newId).renumber (g.renewWith inner).newId = w.renumber g.newId := by
    intro w hM
    rcases hS.edge_mem ⟨w, hM, rfl, rfl⟩ with ⟨hSrc, hDst⟩
    have hPin : ∀ p : Pin, p.node ∈ g.nodeIds →
        (p.renumber g.newId).renumber (g.renewWith inner).newId = p.renumber g.newId := by
      intro p hN
      exact congrArg (fun n => (⟨.number n, p.slot⟩ : Pin)) (newId_renewWith hS hN)
    rw [Wire.renumber, Wire.renumber, hPin _ hSrc, hPin _ hDst]
  conv_lhs => rw [renewWith, sortedOps_renewWith hS, sortedWires_renewWith hS]
  rw [renewWith]
  congr 1
  · change (g.sortedOps.map _).map _ = _
    rw [map_map]
    exact map_congr_left (fun node hN => hOps node (mem_sortedOps_iff.mp hN))
  · change (g.sortedWires.map _).map _ = _
    rw [map_map]
    exact map_congr_left (fun w hM => hWires w (mem_mergeSort.mp hM))

end Graph

---- Graphs Made Anew ----

namespace Graph

variable {K : Type} {g : Graph K}

theorem signature_renewed (hUniq : (g.ops.map Node.id).Nodup) :
    g.renewed.signature = g.signature := by
  rw [renewed_eq hUniq]
  rfl

section

variable (hI : g.Intact)

include hI

theorem Intact.map_signature_renewed : ∀ node ∈ g.ops,
      (node.body.map renewed).map Graph.signature = node.body.map Graph.signature := by
  intro node hN
  rw [Option.map_map]
  refine Option.map_congr (fun body hB => ?_)
  exact signature_renewed (hI.body hN hB).sound.unique

theorem Intact.renewed (hF : g.WellFormed) : g.renewed.Intact ∧ g.renewed.WellFormed := by
  induction hI with
  | intro g hS hBodies ih =>
    have hInner := (Intact.intro g hS hBodies).map_signature_renewed
    cases hF with
    | intro _ hCom hAcy hOwned hNested =>
      have hAll : ∀ node' ∈ (g.renewWith (fun node => node.body.map Graph.renewed)).ops, ∀ body',
          node'.body = some body' → body'.Intact ∧ body'.WellFormed := by
        intro node' hN' body' hB'
        rcases mem_ops_renewWith_iff.mp hN' with ⟨node, hN, rfl⟩
        rcases Option.map_eq_some_iff.mp hB' with ⟨body, hB, rfl⟩
        exact ih node hN body hB (hNested node hN body hB)
      rw [renewed_eq hS.unique]
      constructor
      · exact .intro _ (sound_renewWith hS hOwned hInner)
          (fun node hN body hB => (hAll node hN body hB).1)
      · refine .intro _ (complete_renewWith hS hOwned hInner hCom)
          (acyclic_renewWith hS hOwned hInner hAcy) ?_
          (fun node hN body hB => (hAll node hN body hB).2)
        intro node' hN'
        rcases mem_ops_renewWith_iff.mp hN' with ⟨node, hN, rfl⟩
        rfl

theorem Intact.renewed_renewed : g.renewed.renewed = g.renewed := by
  induction hI with
  | intro g hS hBodies ih =>
    rw [renewed_eq hS.unique, renewed_eq (unique_renewWith hS)]
    refine renewWith_renewWith hS (fun node hN => ?_)
    change (node.body.map Graph.renewed).map Graph.renewed = _
    rw [Option.map_map]
    exact Option.map_congr (fun body hB => ih node hN body hB)

theorem Intact.respelled_renewed (hF : g.WellFormed) : g.Respelled g.renewed := by
  induction hI with
  | intro g hS hBodies ih =>
    have hInner := (Intact.intro g hS hBodies).map_signature_renewed
    cases hF with
    | intro _ hCom hAcy hOwned hNested =>
      rw [renewed_eq hS.unique]
      refine .intro g.newId (renames_renewWith hS hOwned hInner)
        (spelledAlike_renewWith hS hOwned hInner) ?_
      intro node hN node' hN' hId b b' hB hB'
      rcases mem_ops_renewWith_iff.mp hN' with ⟨other, hOther, rfl⟩
      have hSame := (hS.newId_inj (id_mem_nodeIds hOther) (id_mem_nodeIds hN)).mp hId
      obtain rfl := eq_of_key_eq hS.unique hOther hN hSame
      rcases Option.map_eq_some_iff.mp hB' with ⟨body, hInner', rfl⟩
      obtain rfl := eq_of_some hB hInner'
      exact ih other hN b hB (hNested other hN b hB)

theorem WellFormed.digestible (hF : g.WellFormed) : Everywhere Digestible g := by
  induction hI with
  | intro g hS hBodies ih =>
    cases hF with
    | intro _ hCom hAcy hOwned hNested =>
      exact .intro ⟨hS, hAcy, hOwned⟩
        (fun node hN body hB => ih node hN body hB (hNested node hN body hB))

theorem Intact.fingerprint_renewed (hF : g.WellFormed) : g.renewed.fingerprint = g.fingerprint := by
  rcases hI.renewed hF with ⟨hI', hF'⟩
  exact (hI.respelled_renewed hF).fingerprint_eq (hF.digestible hI) (hF'.digestible hI')

end

end Graph

end CircuitGraph

