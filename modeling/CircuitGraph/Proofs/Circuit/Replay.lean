import CircuitGraph.Proofs.Circuit.Layout
import CircuitGraph.Proofs.Emission.Stepping

/-
  Emission of graphs that were laid out line by line.

  Operations are emitted in the order in which they were put
  at the front, on the lines that were led through them.
-/

---- Levels inside of Others ----

namespace CircuitGraph

open List

namespace Graph

variable {K : Type} {g G : Graph K}

/- Whether the operations and wires of one level are all there in another one. -/
structure Within (g G : Graph K) : Prop where
  ops : ∀ node ∈ g.ops, node ∈ G.ops
  wires : ∀ w ∈ g.wires, w ∈ G.wires

theorem within_of_layer {node : Node (Graph K)} {srcs : List Pin}
    (hWithin : (g.layer node srcs).Within G) : g.Within G where
  ops other hM := hWithin.ops other (mem_append_left _ hM)
  wires w hM := hWithin.wires w (mem_append_left _ hM)

theorem Sound.mapM_lineInto (hS : G.Sound) {n : Nat} {srcs : List Pin}
    (hWires : ∀ w ∈ entering n 0 srcs, w ∈ G.wires) {m : LineMap} {lines : List Line}
    (hFnd : List.Forall₂ (fun p l => m.find p.place = .ok l) srcs lines) :
    (List.range srcs.length).mapM (G.lineInto m n) = .ok lines := by
  rw [mapM_eq_ok_iff, forall₂_iff_get]
  refine ⟨by rw [length_range, hFnd.length_eq], ?_⟩
  intro i hRange hLines
  have hLt : i < srcs.length := by simpa using hRange
  have hWire : (⟨srcs[i], .of n i⟩ : Wire) ∈ G.wires :=
    hWires _ (mem_entering_iff.mpr ⟨i, srcs[i], getElem?_eq_getElem hLt, rfl⟩)
  have hSrc : G.source? n i = some srcs[i] := hS.source?_iff.mpr ⟨_, hWire, rfl, rfl⟩
  have hLine := hFnd.get hLt hLines
  simpa [lineInto, hSrc] using hLine

---- Replaying Operations ----

def Follows (m : LineMap) (start : List Line) (front : List Pin) : Prop :=
  ∀ (line : Nat) (p : Pin), front[line]? = some p →
    ∃ l, start[line]? = some l ∧ m.find p.place = .ok l

/-
  Whatever graph the level becomes a part of, going through its
  operations in the order in which they came emits the given
  operations, and the lines that were there at the start are
  found at the front.  The control values that were read last
  are found as well.
-/
def Replays (qubits : Nat) (condition : Option Index) (start : List Line) (front : List Pin)
    (reads : List (Pin × Line)) (g : Graph K) (ops : List Operation) : Prop :=
  ∀ G : Graph K, G.Sound → g.Within G → ∃ m : LineMap,
    (g.ops.map Node.id).foldlM (G.emitStep qubits condition)
      (LineMap.record [] inputId start, []) = .ok (m, ops) ∧
    Follows m start front ∧ ∀ entry ∈ reads, m.find entry.1.place = .ok entry.2

theorem replays_empty (qubits : Nat) (condition : Option Index) (start : List Line)
    (types : List WireType) (hLen : start.length = types.length) :
    Replays qubits condition start ((List.range types.length).map (Pin.of inputId)) []
      (.empty types types : Graph K) [] := by
  intro G _ _
  refine ⟨LineMap.record [] inputId start, rfl, ?_, by simp⟩
  intro line p hAt
  rw [getElem?_map, Option.map_eq_some_iff] at hAt
  rcases hAt with ⟨i, hRange, rfl⟩
  obtain ⟨hLt, rfl⟩ : line < types.length ∧ line = i := by
    simpa [List.getElem?_eq_some_iff] using hRange
  have hLine := getElem?_eq_getElem (hLen ▸ hLt)
  exact ⟨_, hLine, LineMap.find_record_self hLine⟩

---- Further Operations ----

variable {types : List WireType} {front controls srcs : List Pin} {lines : List Nat}
variable {node : Node (Graph K)} {qubits : Nat} {condition : Option Index} {start : List Line}

theorem Admits.forall₂_find (hAdm : Admits types front g node controls lines srcs) {m : LineMap}
    (hFollows : Follows m start front) {picked : List Line}
    (hPicked : lines.map (fun line => start[line]?) = picked.map some) :
    List.Forall₂ (fun p l => m.find p.place = .ok l) srcs picked := by
  have hSrcs : srcs.length = lines.length := by
    simpa using (congrArg List.length hAdm.reached).symm
  have hLines : picked.length = lines.length := by simpa using (congrArg List.length hPicked).symm
  rw [forall₂_iff_get]
  refine ⟨hSrcs.trans hLines.symm, ?_⟩
  intro j hSrc hLine
  rcases hAdm.exists_line (getElem?_eq_getElem hSrc) with ⟨line, hAt, hFront⟩
  rcases hFollows line _ hFront with ⟨l, hStart, hFind⟩
  have hBoth := congrArg (fun list => list[j]?) hPicked
  simp only [getElem?_map, hAt, Option.map_some, hStart, getElem?_eq_getElem hLine,
    Option.some.injEq] at hBoth
  rw [get_eq_getElem, get_eq_getElem, ← hBoth]
  exact hFind

section

variable {reads : List (Pin × Line)} {ops : List Operation}
  (hReplays : Replays qubits condition start front reads g ops) (hFr : Frontier types front g)

include hReplays hFr

theorem Replays.layer (hAdm : Admits types front g node (reads.map Prod.fst) lines srcs)
    {picked : List Line} (extra : List Line) (emitted : List Operation)
    (hPicked : lines.map (fun line => start[line]?) = picked.map some)
    (hEmit : emitNode qubits node (node.body.map (linearize qubits)) condition
      (reads.map Prod.snd ++ picked) = .ok (emitted, picked ++ extra)) :
    Replays qubits condition start (reroute node.id lines 0 front)
      (extra.zipIdx.map (fun entry => (.of node.id (lines.length + entry.2), entry.1)))
      (g.layer node (reads.map Prod.fst ++ srcs)) (ops ++ emitted) := by
  intro G hS hWithin
  rcases hReplays G hS (within_of_layer hWithin) with ⟨m, hFold, hFollows, hReads⟩
  have hSrcs : List.Forall₂ (fun p l => m.find p.place = .ok l)
      (reads.map Prod.fst ++ srcs) (reads.map Prod.snd ++ picked) := by
    refine rel_append ?_ (hAdm.forall₂_find hFollows hPicked)
    rw [forall₂_map_left_iff, forall₂_map_right_iff, forall₂_same]
    exact hReads
  have hLines := hS.mapM_lineInto (fun w hM => hWithin.wires w (mem_append_right _ hM)) hSrcs
  have hPlaces : node.signature.inputs.length = (reads.map Prod.fst ++ srcs).length := by
    simpa using (congrArg List.length (hAdm.map_outType? hFr)).symm
  rw [← hPlaces] at hLines
  have hN : node ∈ G.ops :=
    hWithin.ops node (mem_append_right _ (mem_singleton_self _))
  have hStep : G.emitStep qubits condition (m, ops) node.id =
      .ok (LineMap.record m node.id (picked ++ extra), ops ++ emitted) :=
    (hS.emitStep_eq_ok_iff hN hAdm.owned).mpr ⟨_, _, _, hLines, hEmit, rfl⟩
  have hLen : picked.length = lines.length := by
    simpa using (congrArg List.length hPicked).symm
  refine ⟨LineMap.record m node.id (picked ++ extra), ?_, ?_, ?_⟩
  · change ((g.ops ++ [node]).map Node.id).foldlM _ _ = _
    rw [map_append, foldlM_append, hFold]
    exact bind_eq_ok_iff.mpr ⟨_, rfl, bind_eq_ok_iff.mpr ⟨_, hStep, rfl⟩⟩
  · intro line p hAt
    rcases getElem?_reroute_cases hAdm.distinct hAt with ⟨-, hOld⟩ | ⟨j, hLine, rfl⟩
    · rcases hFollows line p hOld with ⟨l, hStart, hFind⟩
      refine ⟨l, hStart, ?_⟩
      rw [LineMap.find_record_of_ne]
      · exact hFind
      · rw [hAdm.next]
        exact hFr.node_ne_nextId (mem_of_getElem? hOld)
    · have hBoth := congrArg (fun list => list[j]?) hPicked
      simp only [getElem?_map, hLine, Option.map_some] at hBoth
      have hLt : j < picked.length := hLen ▸ (lt_of_getElem? hLine)
      rw [getElem?_eq_getElem hLt, Option.map_some, Option.some.injEq] at hBoth
      refine ⟨_, hBoth, LineMap.find_record_self ?_⟩
      change (picked ++ extra)[j]? = some picked[j]
      rw [getElem?_append_left hLt, getElem?_eq_getElem hLt]
  · intro entry hM
    rcases mem_map.mp hM with ⟨⟨l, k⟩, hZip, rfl⟩
    rw [mk_mem_zipIdx_iff_getElem?] at hZip
    refine LineMap.find_record_self ?_
    change (picked ++ extra)[lines.length + k]? = some l
    rw [← hLen, getElem?_append_right (Nat.le_add_right _ _), Nat.add_sub_cancel_left]
    exact hZip

/- A level that is closed emits its operations, and its lines come out as they went in. -/
theorem Replays.linearize (hLen : start.length = types.length) (hS : G.Sound)
    (hOps : G.ops = g.ops) (hWires : ∀ w, w ∈ G.wires ↔ w ∈ (g.close front).wires)
    (hOuts : G.outputs = types) : G.linearize qubits start condition = .ok (ops, start) := by
  have hWithin : g.Within G :=
    ⟨fun node hM => hOps ▸ hM, fun w hM => (hWires w).mpr (mem_append_left _ hM)⟩
  rcases hReplays G hS hWithin with ⟨m, hFold, hFollows, -⟩
  have hOrder : G.operationOrder = .ok (g.ops.map Node.id) := by
    rw [hS.operationOrder_of_ascending
      (fun w hM => hFr.ascending_close w ((hWires w).mp hM)), ← hFr.opIds_close]
    rw [opIds, opIds, hOps]
    rfl
  refine linearize_eq_ok_iff.mpr ⟨_, m, hOrder, hFold, ?_⟩
  rw [hOuts, ← hFr.length]
  refine hS.mapM_lineInto (fun w hM => (hWires w).mpr (mem_append_right _ hM)) ?_
  rw [forall₂_iff_get]
  refine ⟨hFr.length.trans hLen.symm, ?_⟩
  intro line hPin hLine
  rcases hFollows line _ (getElem?_eq_getElem hPin) with ⟨l, hStart, hFind⟩
  rw [get_eq_getElem, get_eq_getElem]
  rw [getElem?_eq_getElem hLine, Option.some.injEq] at hStart
  rw [hStart]
  exact hFind

end

end Graph

end CircuitGraph
