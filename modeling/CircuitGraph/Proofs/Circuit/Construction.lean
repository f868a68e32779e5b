import CircuitGraph.Proofs.Circuit.Fitting
import CircuitGraph.Proofs.Circuit.Replay

/-
  Laying out the operations of a circuit.

  An operation without condition becomes one operation at the
  front.
-/

---- Runs of Edits ----

namespace CircuitGraph

open List

variable {lines : List Nat} {types : List WireType}

namespace Graph

variable {K : Type} [Scalar K] {g g₁ : Graph K}

/- Leading lines through a node is joining their pins to it and moving the front. -/
theorem threadLines_eq (n offset : Nat) (hDistinct : lines.Nodup) (i : Nat)
    {front srcs : List Pin} (hReached : lines.map (fun line => front[line]?) = srcs.map some) :
    threadLines (K := K) n offset (lines.map (fun line : Nat => some (line : Int))) i front = (do
      (entering n (i + offset) srcs).forM (fun w => join w.src w.dst)
      return reroute n lines i front) := by
  induction lines generalizing i front srcs with
  | nil =>
    obtain rfl : srcs = [] := by simpa using hReached.symm
    rfl
  | cons line lines ih =>
    cases srcs with
    | nil => simp at hReached
    | cons p srcs =>
      rw [map_cons, map_cons, List.cons.injEq] at hReached
      rw [nodup_cons] at hDistinct
      have hLt := (List.getElem?_eq_some_iff.mp hReached.1).1
      have hPlace : placeIn? front.length (line : Int) = some line := by
        rw [placeIn?, if_pos ⟨Int.natCast_nonneg _, Int.ofNat_lt.mpr hLt⟩, Int.toNat_natCast]
      have hPin : frontPin front (some (line : Int)) = .ok (line, p) := by
        simp [frontPin, hPlace, hReached.1]
      have hRest : lines.map (fun other => (front.set line (.of n i))[other]?) = srcs.map some := by
        rw [← hReached.2]
        refine map_congr_left (fun other hM => ?_)
        exact getElem?_set_ne (fun hEq : line = other => hDistinct.1 (hEq ▸ hM))
      rw [map_cons, threadLines, advance, hPin, entering_cons, reroute]
      simp only [Edit.ofExcept, pure_bind, forM_eq_forM, forM_cons, bind_assoc]
      rw [ih hDistinct.2 (i + 1) hRest, Nat.add_right_comm, forM_eq_forM]

/- An operation that fits is added, and its wires are joined. -/
theorem Admits.yields {front controls srcs : List Pin} {node : Node (Graph K)}
    (hFr : Frontier types front g) (hAdm : Admits types front g node controls lines srcs)
    (hA : g.Alike g₁) : ∃ g₂ g₃, Yields (addOp node.kind node.params node.body) g₁ node.id g₂ ∧
      Yields ((entering node.id 0 (controls ++ srcs)).forM (fun w => join w.src w.dst)) g₂ () g₃ ∧
      (g.layer node (controls ++ srcs)).Alike g₃ := by
  rcases node with ⟨n, kind, params, body, enclosing⟩
  obtain rfl : enclosing = none := hAdm.owned
  obtain rfl : n = g₁.nextId := hAdm.next.trans hA.nextId.symm
  have hN : ∀ n, Node.Sound (⟨n, kind, params, body, none⟩ : Node (Graph K)) := fun n =>
    ⟨hAdm.sound.inner, hAdm.sound.params, hAdm.sound.body, hAdm.sound.owned⟩
  have hAdded := yields_addOp (g := g₁) hN
  have hNext := alike_insertNode { g₁ with nextId := g₁.nextId + 1 }
    ⟨g₁.nextId, kind, params, body, none⟩
  have hSame : (g.layer ⟨g₁.nextId, kind, params, body, none⟩ (controls ++ srcs)).Alike
      { ({ g₁ with nextId := g₁.nextId + 1 } : Graph K).insertNode
        ⟨g₁.nextId, kind, params, body, none⟩ with
        wires := g₁.wires ++ entering g₁.nextId 0 (controls ++ srcs) } := by
    refine .of_parts hA.inputs hA.outputs ?_ ?_ ?_
    · exact congrArg (· ++ _) hA.ops
    · exact congrArg (· ++ _) hA.wires
    · exact congrArg (· + 1) hA.nextId
  rcases yields_joinAll ((hAdm.sound_layer hFr).of_alike hSame) with ⟨g₃, hJoined, hAfter⟩
  exact ⟨_, g₃, hAdded, hJoined, hSame.trans hAfter⟩

---- The Order of Wires ----

variable {K : Type} {g : Graph K}

theorem Sound.of_perm (hS : g.Sound) {ws : List Wire} (hPerm : g.wires.Perm ws) :
    ({ g with wires := ws } : Graph K).Sound :=
  { hS with
    typed := fun w hM => hS.typed w (hPerm.mem_iff.mpr hM)
    single := (hPerm.map _).nodup_iff.mp hS.single
    linear := fun v hL w hR =>
      hS.linear v (hPerm.mem_iff.mpr hL) w (hPerm.mem_iff.mpr hR) }

theorem WellFormed.of_perm (hF : g.WellFormed) {ws : List Wire} (hPerm : g.wires.Perm ws) :
    ({ g with wires := ws } : Graph K).WellFormed := by
  cases hF with
  | intro _ hCom hAcy hOwned hBodies =>
    have hW : ∀ src dst, g.Wired src dst → ({ g with wires := ws } : Graph K).Wired src dst := by
      rintro src dst ⟨w, hM, hEnds⟩
      exact ⟨w, hPerm.mem_iff.mp hM, hEnds⟩
    have hEdge : ∀ u v, ({ g with wires := ws } : Graph K).Edge u v → g.Edge u v := by
      rintro u v ⟨w, hM, hEnds⟩
      exact ⟨w, hPerm.mem_iff.mpr hM, hEnds⟩
    have hNone : ({ g with wires := ws } : Graph K).Acyclic := fun n hCycle =>
      hAcy n (Relation.TransGen.mono hEdge n n hCycle)
    refine .intro _ ⟨?_, ?_⟩ hNone hOwned hBodies
    · intro place t hType
      rcases hCom.fed place t hType with ⟨src, hSrc⟩
      exact ⟨src, hW src place hSrc⟩
    · intro place t hType hLin
      rcases hCom.used place t hType hLin with ⟨dst, hDst⟩
      exact ⟨dst, hW place dst hDst⟩

---- Single Operations ----

variable {K : Type}

/- The wires that lead places of a node straight to both boundaries. -/
def straight (n : Nat) (is : List Nat) : List Wire :=
  is.flatMap (fun i => [⟨.of inputId i, .of n i⟩, ⟨.of n i, .of outputId i⟩])

theorem map_getElem?_range {α : Type} (xs : List α) :
    (List.range xs.length).map (fun i => xs[i]?) = xs.map some := by
  refine ext_getElem (by simp) (fun i hL hR => ?_)
  simp at hR
  simp [hR]

theorem reroute_range (n m k : Nat) :
    reroute n (List.range k) 0 ((List.range k).map (Pin.of m)) = (List.range k).map (Pin.of n) := by
  refine ext_getElem? (fun i => ?_)
  by_cases hLt : i < k
  · rw [getElem?_reroute (j := i) nodup_range (getElem?_range hLt) (by simpa using hLt)]
    simp [hLt]
  · rw [getElem?_eq_none (by rw [length_reroute]; simpa using hLt),
      getElem?_eq_none (by simpa using hLt)]

theorem entering_map_of (n m k : Nat) : entering n 0 ((List.range k).map (Pin.of m)) =
      (List.range k).map (fun i => ⟨.of m i, .of n i⟩) := by
  refine ext_getElem? (fun i => ?_)
  simp only [entering, getElem?_map, getElem?_zipIdx]
  by_cases hLt : i < k
  · simp [hLt]
  · simp [hLt]

theorem perm_straight (n k : Nat) : (entering n 0 ((List.range k).map (Pin.of inputId)) ++
      entering outputId 0 ((List.range k).map (Pin.of n))).Perm (straight n (List.range k)) := by
  have hPerm := List.flatMap_append_perm (List.range k)
    (fun i => [(⟨.of inputId i, .of n i⟩ : Wire)]) (fun i => [⟨.of n i, .of outputId i⟩])
  rw [entering_map_of, entering_map_of, ← flatMap_pure_eq_map, ← flatMap_pure_eq_map]
  exact hPerm

/- One operation over its own lines can be put at the front of an empty level. -/
theorem admits_alone {node : Node (Graph K)} (hS : node.Sound) (hId : node.id = 2)
    (hOwned : node.enclosing = none) (hB : node.body = none)
    (hSig : node.signature = ⟨types, types⟩) :
    Admits types ((List.range types.length).map (Pin.of inputId)) (.empty types types) node []
      (List.range types.length) ((List.range types.length).map (Pin.of inputId)) where
  sound := hS
  next := hId
  owned := hOwned
  body b hSome := by
    rw [hB] at hSome
    cases hSome
  controlled := by simp
  apart := nodup_nil
  distinct := nodup_range
  reached := by
    rw [map_map]
    refine map_congr_left (fun i hM => ?_)
    simp [mem_range.mp hM]
  inputs := by
    rw [hSig, map_nil, nil_append]
    exact (map_getElem?_range types).symm
  outputs := by
    refine ⟨[], ?_, by simp⟩
    rw [hSig, append_nil]
    exact (map_getElem?_range types).symm

variable [Scalar K]

theorem forM_joinThrough (n : Nat) (is : List Nat) :
    is.forM (joinThrough (K := K) n) = (straight n is).forM (fun w => join w.src w.dst) := by
  simp only [forM_eq_forM, straight]
  induction is with
  | nil => rfl
  | cons i is ih =>
    rw [flatMap_cons, forM_append, forM_cons, ih]
    simp [joinThrough]

theorem exists_ofOperation {kind : Kind} {params : List Param}
    (hSig : kind.signature? = some ⟨types, types⟩)
    (hN : ∀ n, Node.Sound (⟨n, kind, params, none, none⟩ : Node (Graph K))) :
    ∃ body : Graph K, ofOperation kind (.ok params) = .ok body ∧
      body.signature = ⟨types, types⟩ ∧ body.WellFormed ∧
      ∀ qubits start condition emitted, start.length = types.length →
        emitNode qubits (⟨2, kind, params, none, none⟩ : Node (Graph K)) none condition start =
          .ok (emitted, start) →
        body.linearize qubits start condition = .ok (emitted, start) := by
  have hPins : (⟨2, kind, params, none, none⟩ : Node (Graph K)).signature = ⟨types, types⟩ := by
    rw [Node.signature_gate (hN 2).body, hSig, Option.getD_some]
  have hFr := frontier_empty (K := K) types
  have hAdm := admits_alone (hN 2) rfl rfl rfl hPins
  let level : Graph K := (Graph.empty types types).layer ⟨2, kind, params, none, none⟩
    ((List.range types.length).map (Pin.of inputId))
  let front := (List.range types.length).map (Pin.of 2)
  have hFront : Frontier types front level := by
    have hMoved := hAdm.frontier_layer hFr
    rwa [reroute_range] at hMoved
  have hPerm : (level.close front).wires.Perm (straight 2 (List.range types.length)) :=
    perm_straight 2 types.length
  have hS := hFront.sound_close.of_perm hPerm
  let start : Graph K := { Graph.empty types types with nextId := 3 }.insertNode
    ⟨2, kind, params, none, none⟩
  have hStart : Alike { level.close front with wires := straight 2 (List.range types.length) }
      { start with wires := start.wires ++ straight 2 (List.range types.length) } :=
    .of_parts rfl rfl rfl rfl rfl
  rcases yields_joinAll (hS.of_alike hStart) with ⟨body, hJoined, hA⟩
  have hB := hStart.trans hA
  refine ⟨body, ?_, ?_, ?_, ?_⟩
  · unfold ofOperation
    rw [hSig]
    refine Edit.build_eq_ok_iff.mpr (.bind (yields_addOp hN) ?_)
    rw [forM_joinThrough]
    exact hJoined
  · rw [hB.signature]
    rfl
  · exact (hFront.wellFormed_close.of_perm hPerm).of_alike hB
  · intro qubits start condition emitted hLen hEmit
    have hPicked : (List.range types.length).map (fun line => start[line]?) = start.map some := by
      rw [← hLen, map_getElem?_range]
    have hReplays := (replays_empty (K := K) qubits condition start types hLen).layer
      hFr hAdm [] emitted hPicked (by simpa using hEmit)
    rw [reroute_range] at hReplays
    refine hReplays.linearize hFront hLen (hS.of_alike hB) hB.ops ?_ hB.outputs
    intro w
    rw [hB.wires]
    exact hPerm.symm.mem_iff

---- Levels under Construction ----

variable {K : Type} {g g₁ : Graph K}

theorem exists_sources (front : List Pin) (lines : List Nat)
    (hBelow : ∀ line ∈ lines, line < front.length) :
    ∃ srcs : List Pin, lines.map (fun line => front[line]?) = srcs.map some := by
  induction lines with
  | nil => exact ⟨[], rfl⟩
  | cons line lines ih =>
    rcases ih (fun other hM => hBelow other (mem_cons_of_mem _ hM)) with ⟨srcs, hSrcs⟩
    have hLt := hBelow line mem_cons_self
    exact ⟨front[line] :: srcs, by rw [map_cons, hSrcs, getElem?_eq_getElem hLt]; rfl⟩

/-
  A circuit that has been laid out in part: lines lead to the
  front, and going through the level again gives the
  operations that were laid out, on the same lines.
-/
structure LaidOut (n m : Nat) (front : List Pin) (g : Graph K) (ops : List Operation) : Prop where
  frontier : Frontier (lineTypes n m) front g
  replays : Replays n none ((List.range (n + m)).map Line.plain) front [] g
    (ops.map Operation.plain)
  kinds : m = 0 → ∀ node ∈ g.ops, ∃ op ∈ ops, node.kind = op.kind

variable {n m : Nat} {front : List Pin} {ops : List Operation} {op : Operation}

theorem map_getElem?_plain {k : Nat} (hBelow : ∀ line ∈ lines, line < k) :
    lines.map (fun line => ((List.range k).map Line.plain)[line]?) =
      (lines.map Line.plain).map some := by
  rw [map_map]
  refine map_congr_left (fun line hM => ?_)
  simp [hBelow line hM]

theorem LaidOut.front_length (hLaid : LaidOut n m front g ops) : front.length = n + m :=
  hLaid.frontier.length.trans (length_lineTypes n m)

theorem admits_readBit {c : Nat} (hLt : c < m) {p : Pin} (hPin : front[n + c]? = some p) :
    Admits (lineTypes n m) front g
      (⟨g.nextId, .readBit, [], none, none⟩ : Node (Graph K)) [] [n + c] [p] where
  sound := ⟨rfl, rfl, rfl, .inl rfl⟩
  next := rfl
  owned := rfl
  body := by simp
  controlled := by simp
  apart := nodup_nil
  distinct := nodup_singleton _
  reached := by simp [hPin]
  inputs := by
    simp [getElem?_lineTypes_bit hLt, Node.signature, Kind.signature?]
  outputs := by
    refine ⟨[some .bool], ?_, by simp⟩
    simp [getElem?_lineTypes_bit hLt, Node.signature, Kind.signature?]

theorem controlled_readBit (hFr : Frontier (lineTypes n m) front g) {c : Nat} {p : Pin}
    (hAdm : Admits (lineTypes n m) front g
      (⟨g.nextId, .readBit, [], none, none⟩ : Node (Graph K)) [] [n + c] [p]) :
    let g' := g.layer ⟨g.nextId, .readBit, [], none, none⟩ [p]
    g'.outType? (g.nextId, 1) = some .bool ∧ (∀ w ∈ g'.wires, w.src.place ≠ (g.nextId, 1)) ∧
      ∀ q ∈ reroute g.nextId [n + c] 0 front, q.place ≠ (g.nextId, 1) := by
  intro g'
  refine ⟨hAdm.outType?_layer_new hFr 1, ?_, ?_⟩
  · intro w hM hPlace
    exact hAdm.src_node_ne hFr w hM (congrArg Prod.fst hPlace)
  · intro q hM hPlace
    rcases mem_iff_getElem?.mp hM with ⟨line, hAt⟩
    rcases getElem?_reroute_cases hAdm.distinct hAt with ⟨-, hOld⟩ | ⟨j, hLine, rfl⟩
    · exact hFr.node_ne_nextId (mem_of_getElem? hOld) (congrArg Prod.fst hPlace)
    · obtain rfl : j = 1 := congrArg Prod.snd hPlace
      simp at hLine

variable [Scalar K]

theorem LaidOut.addPlain (hLaid : LaidOut n m front g ops) (hFits : op.Fits n m)
    (hPlain : op.condition = none) (hA : g.Alike g₁) :
    ∃ front' g' g₁', Yields (addOperation n front op) g₁ front' g₁' ∧ g'.Alike g₁' ∧
      LaidOut n m front' g' (ops ++ [op]) := by
  rcases hFits.exists_signature with ⟨ts, hSig, hTypes⟩
  rcases exists_sources front (op.touched n)
    (fun line hM => hLaid.front_length ▸ hFits.touched_lt line hM) with ⟨srcs, hSrcs⟩
  have hN := hFits.node_sound (K := K) g.nextId
  have hPins : (⟨g.nextId, op.kind, op.params, none, none⟩ : Node (Graph K)).signature =
      ⟨ts, ts⟩ := by
    rw [Node.signature_gate hN.body, hSig, Option.getD_some]
  have hAdm : Admits (lineTypes n m) front g
      (⟨g.nextId, op.kind, op.params, none, none⟩ : Node (Graph K)) [] (op.touched n) srcs :=
    { sound := hN
      next := rfl
      owned := rfl
      body := by simp
      controlled := by simp
      apart := nodup_nil
      distinct := hFits.touched_nodup
      reached := hSrcs
      inputs := by rw [hPins]; exact hTypes
      outputs := ⟨[], by rw [hPins, append_nil]; exact hTypes, by simp⟩ }
  rcases hAdm.yields hLaid.frontier hA with ⟨g₂, g₃, hAdded, hJoined, hAfter⟩
  refine ⟨_, _, g₃, ?_, hAfter, hAdm.frontier_layer hLaid.frontier, ?_, fun hNone node hM => ?_⟩
  · unfold addOperation
    rw [hPlain]
    refine .bind (.ofExcept hFits.linesOf_eq) ?_
    refine .bind hAdded ?_
    rw [threadLines_eq _ 0 hFits.touched_nodup 0 hSrcs]
    exact .bind hJoined rfl
  · have hEmit := hFits.emitNode_eq (K := K) g.nextId none
    have hNext := hLaid.replays.layer hLaid.frontier hAdm [] _
      (map_getElem?_plain hFits.touched_lt) (by simpa using hEmit)
    have hSame : { op.plain with condition := none } = op.plain := by
      simp [Operation.plain, hPlain]
    rw [hSame] at hNext
    rw [map_append]
    exact hNext
  · rcases mem_append.mp hM with hOld | hNew
    · rcases hLaid.kinds hNone node hOld with ⟨other, hOther, hKind⟩
      exact ⟨other, mem_append_left _ hOther, hKind⟩
    · exact ⟨op, by simp, by rw [mem_singleton.mp hNew]⟩

theorem LaidOut.addConditional (hLaid : LaidOut n m front g ops) (hFits : op.Fits n m) {s : Slot}
    (hCondition : op.condition = some (.line s)) (hLt : s.toNat < m) (hA : g.Alike g₁) :
    ∃ front' g' g₁', Yields (addOperation n front op) g₁ front' g₁' ∧ g'.Alike g₁' ∧
      LaidOut n m front' g' (ops ++ [op]) := by
  rcases hFits.exists_signature with ⟨ts, hSig, hTypes⟩
  rcases exists_ofOperation hSig (hFits.node_sound (K := K)) with
    ⟨body, hB, hBodySig, hF, hBodyEmits⟩
  -- The bit is read.
  have hBit : n + s.toNat < front.length := by
    rw [hLaid.front_length]
    omega
  have hPin := getElem?_eq_getElem hBit
  have hRead := admits_readBit (g := g) hLt hPin
  rcases hRead.yields hLaid.frontier hA with ⟨g₂, g₃, hAdded, hJoined, hMid⟩
  have hFr := hRead.frontier_layer hLaid.frontier
  have hReplays := hLaid.replays.layer hLaid.frontier hRead
    [.control (n + s.toNat)] [] (map_getElem?_plain (by simpa using hLt)) rfl
  rw [append_nil] at hReplays
  -- The container takes the control value and the lines.
  rcases exists_sources (reroute g.nextId [n + s.toNat] 0 front) (op.touched n) (fun line hM => by
      rw [length_reroute, hLaid.front_length]
      exact hFits.touched_lt line hM) with ⟨srcs, hSrcs⟩
  have hAdm : Admits (lineTypes n m) (reroute g.nextId [n + s.toNat] 0 front)
      (g.layer ⟨g.nextId, .readBit, [], none, none⟩ [front[n + s.toNat]])
      (⟨g.nextId + 1, .conditional, [], some body, none⟩ : Node (Graph K))
      [.of g.nextId 1] (op.touched n) srcs :=
    { sound := ⟨rfl, rfl, rfl, .inr rfl⟩
      next := rfl
      owned := rfl
      body := by
        intro b hSome
        exact Option.some.inj hSome ▸ hF
      controlled := by
        intro p hM
        rw [mem_singleton.mp hM]
        exact controlled_readBit hLaid.frontier hRead
      apart := nodup_singleton _
      distinct := hFits.touched_nodup
      reached := hSrcs
      inputs := by
        simp [Node.signature, Node.boundary?, hBodySig, hTypes]
      outputs := by
        refine ⟨[], ?_, by simp⟩
        simp [Node.signature, Node.boundary?, hBodySig, hTypes] }
  rcases hAdm.yields hFr hMid with ⟨g₄, g₅, hPlaced, hThreaded, hAfter⟩
  refine ⟨_, _, g₅, ?_, hAfter, hAdm.frontier_layer hFr, ?_, by omega⟩
  · unfold addOperation
    rw [hCondition]
    refine .bind (.ofExcept hFits.linesOf_eq) ?_
    refine .bind (.ofExcept hB) ?_
    refine .bind hAdded ?_
    refine yields_bind_iff.mpr ⟨reroute g.nextId [n + s.toNat] 0 front, g₃, ?_, ?_⟩
    · have hAdvance := threadLines_eq (K := K) g.nextId 0 hRead.distinct 0 hRead.reached
      rw [map_singleton, threadLines] at hAdvance
      simp only [threadLines, bind_pure] at hAdvance
      change Yields (advance front (some ((n + s.toNat : Nat) : Int)) _ _) _ _ _
      rw [hAdvance]
      exact .bind hJoined rfl
    · refine .bind hPlaced ?_
      rw [threadLines_eq _ 1 hFits.touched_nodup 0 hSrcs]
      rcases yields_forM_cons_iff.mp hThreaded with ⟨g', hControl, hLines⟩
      refine .bind hControl ?_
      exact .bind hLines rfl
  · have hLen : ((op.touched n).map Line.plain).length = ts.length := by
      simpa using (congrArg List.length hTypes).symm
    have hIn := hBodyEmits n _ (some (.number s.toNat)) _ hLen
      (hFits.emitNode_eq 2 (some (.number s.toNat)))
    have hSame : { op.plain with condition := some (.number s.toNat) } = op.plain := by
      simp [Operation.plain, hCondition, Index.plain]
    rw [hSame] at hIn
    have hEmit : emitNode n (⟨g.nextId + 1, .conditional, [], some body, none⟩ : Node (Graph K))
        (some (body.linearize n)) none
        (.control (n + s.toNat) :: (op.touched n).map Line.plain) =
          .ok ([op.plain], (op.touched n).map Line.plain) := by
      simp only [emitNode, Nat.add_sub_cancel_left]
      exact hIn
    have hNext := hReplays.layer hFr hAdm [] _
      (map_getElem?_plain hFits.touched_lt) (by rw [append_nil]; exact hEmit)
    rw [map_append]
    exact hNext

theorem LaidOut.addAll (hLaid : LaidOut n m front g ops) {more : List Operation}
    (hFits : ∀ op ∈ more, op.Fits n m) (hA : g.Alike g₁) :
    ∃ front' g' g₁', Yields (more.foldlM (addOperation n) front) g₁ front' g₁' ∧ g'.Alike g₁' ∧
      LaidOut n m front' g' (ops ++ more) := by
  induction more generalizing front g g₁ ops with
  | nil =>
    refine ⟨front, g, g₁, rfl, hA, ?_⟩
    rwa [append_nil]
  | cons op more ih =>
    have hHead : ∃ front' g' g₁', Yields (addOperation n front op) g₁ front' g₁' ∧ g'.Alike g₁' ∧
        LaidOut n m front' g' (ops ++ [op]) := by
      have hFit := hFits op mem_cons_self
      cases hCondition : op.condition with
      | none => exact hLaid.addPlain hFit hCondition hA
      | some c =>
        rcases hFit.conditional c hCondition with ⟨s, rfl, hLt⟩
        exact hLaid.addConditional hFit hCondition hLt hA
    rcases hHead with ⟨front', g', g₁', hY, hMid, hNext⟩
    rcases ih hNext (fun other hM => hFits other (mem_cons_of_mem _ hM)) hMid with
      ⟨front'', g'', g₁'', hRest, hAfter, hAll⟩
    refine ⟨front'', g'', g₁'', ?_, hAfter, ?_⟩
    · rw [foldlM_cons]
      exact .bind hY hRest
    · rwa [append_assoc, singleton_append] at hAll

end Graph

end CircuitGraph
