import CircuitGraph.Proofs.Reachable

/-
  Laying lines through operations.

  A graph of lines is made one operation after the other.  At
  any time the front holds the pin that each line has come to.
-/

---- Entering Wires ----

namespace CircuitGraph

open List

variable {n i line j : Nat} {lines : List Nat} {front : List Pin} {p : Pin}

namespace Graph

/- The wires that lead pins into the places of a node, from a given place on. -/
def entering (n start : Nat) (srcs : List Pin) : List Wire :=
  (srcs.zipIdx start).map (fun entry => ⟨entry.1, .of n entry.2⟩)

theorem entering_cons (n start : Nat) (p : Pin) (srcs : List Pin) :
    entering n start (p :: srcs) = ⟨p, .of n start⟩ :: entering n (start + 1) srcs := by
  simp [entering, zipIdx_cons]

theorem mem_entering_iff {srcs : List Pin} {w : Wire} :
    w ∈ entering n 0 srcs ↔ ∃ i p, srcs[i]? = some p ∧ w = ⟨p, .of n i⟩ := by
  simp only [entering, mem_map, Prod.exists, mk_mem_zipIdx_iff_getElem?]
  constructor
  · rintro ⟨p, i, hAt, rfl⟩
    exact ⟨i, p, hAt, rfl⟩
  · rintro ⟨i, p, hAt, rfl⟩
    exact ⟨p, i, hAt, rfl⟩

theorem nodup_map_place_iff {pins : List Pin} : (pins.map Pin.place).Nodup ↔
      ∀ (a b : Nat) (p q : Pin), pins[a]? = some p → pins[b]? = some q →
        p.place = q.place → a = b := by
  constructor
  · intro hNodup a b p q hL hR hPlace
    have hA : (pins.map Pin.place)[a]? = some p.place := by rw [getElem?_map, hL]; rfl
    have hB : (pins.map Pin.place)[b]? = some p.place := by
      rw [getElem?_map, hR, hPlace]
      rfl
    exact (getElem?_inj (lt_of_getElem? hA) hNodup).mp (hA.trans hB.symm)
  · intro hInj
    rw [nodup_iff_getElem?_ne_getElem?]
    intro i j hLt hLen hEq
    rw [length_map] at hLen
    have hI := getElem?_eq_getElem (Nat.lt_trans hLt hLen)
    have hJ := getElem?_eq_getElem hLen
    rw [getElem?_map, getElem?_map, hI, hJ] at hEq
    exact absurd (hInj i j _ _ hI hJ (Option.some.inj hEq)) (Nat.ne_of_lt hLt)

theorem map_src_entering (n start : Nat) (srcs : List Pin) :
    (entering n start srcs).map (fun w => w.src.place) = srcs.map Pin.place := by
  simp only [entering, map_map]
  conv_rhs => rw [← zipIdx_map_fst start srcs, map_map]
  rfl

theorem map_dst_entering (n : Nat) (srcs : List Pin) :
    (entering n 0 srcs).map (fun w => w.dst.place) =
      (List.range srcs.length).map (fun i => (n, i)) := by
  rw [range_eq_range', ← zipIdx_map_snd 0 srcs, map_map, entering, map_map]
  rfl

variable {K : Type} {g : Graph K}

theorem Sound.appendEntering (hS : g.Sound) {srcs : List Pin} (hTypes : ∀ i p, srcs[i]? = some p →
      ∃ t, g.outType? p.place = some t ∧ g.inType? (n, i) = some t)
    (hApart : (srcs.map Pin.place).Nodup)
    (hUnused : ∀ p ∈ srcs, ∀ w ∈ g.wires, w.src.place ≠ p.place)
    (hFree : ∀ w ∈ g.wires, w.dst.node ≠ n) :
    ({ g with wires := g.wires ++ entering n 0 srcs } : Graph K).Sound :=
  { hS with
    typed := by
      intro w hM
      rcases mem_append.mp hM with hOld | hNew
      · exact hS.typed w hOld
      · rcases mem_entering_iff.mp hNew with ⟨i, p, hAt, rfl⟩
        exact hTypes i p hAt
    single := by
      rw [map_append, nodup_append, map_dst_entering]
      refine ⟨hS.single, nodup_range.map (fun i j hEq => (Prod.mk.inj hEq).2), ?_⟩
      rintro place hOld place' hNew rfl
      rcases mem_map.mp hOld with ⟨w, hM, rfl⟩
      rcases mem_map.mp hNew with ⟨i, -, hPlace⟩
      exact hFree w hM (congrArg Prod.fst hPlace).symm
    linear := by
      have hNew : ∀ v ∈ entering n 0 srcs, ∀ w ∈ g.wires, w.src.place ≠ v.src.place := by
        intro v hM w hWire
        rcases mem_entering_iff.mp hM with ⟨i, p, hAt, rfl⟩
        exact hUnused p (mem_of_getElem? hAt) w hWire
      intro v hL w hR hSrc hType
      rcases mem_append.mp hL with hOldV | hNewV <;> rcases mem_append.mp hR with hOldW | hNewW
      · exact hS.linear v hOldV w hOldW hSrc hType
      · exact absurd hSrc (hNew w hNewW v hOldV)
      · exact absurd hSrc.symm (hNew v hNewV w hOldW)
      · refine inj_on_of_nodup_map (f := fun w : Wire => w.src.place) ?_ hNewV hNewW hSrc
        rw [map_src_entering]
        exact hApart }

---- Layers ----

/- The level with another operation that the given pins lead into. -/
def layer (g : Graph K) (node : Node (Graph K)) (srcs : List Pin) : Graph K :=
  { g with
    ops := g.ops ++ [node]
    wires := g.wires ++ entering node.id 0 srcs
    nextId := g.nextId + 1 }

variable {node : Node (Graph K)} {srcs : List Pin}

theorem signatureOf_layer (hM : n ∈ g.nodeIds) :
    (g.layer node srcs).signatureOf n = g.signatureOf n :=
  signatureOf_append hM _

theorem outType?_layer {place : Nat × Nat} (hM : place.1 ∈ g.nodeIds) :
    (g.layer node srcs).outType? place = g.outType? place := by
  rw [outType?, signatureOf_layer hM, outType?]

theorem inType?_layer {place : Nat × Nat} (hM : place.1 ∈ g.nodeIds) :
    (g.layer node srcs).inType? place = g.inType? place := by
  rw [inType?, signatureOf_layer hM, inType?]

theorem mem_nodeIds_layer_iff : n ∈ (g.layer node srcs).nodeIds ↔ n ∈ g.nodeIds ∨ n = node.id := by
  simp only [mem_nodeIds_iff, mem_opIds_iff, layer, mem_append, mem_singleton]
  constructor
  · rintro (hInput | hOutp | ⟨other, hOld | rfl, hId⟩)
    · exact .inl (.inl hInput)
    · exact .inl (.inr (.inl hOutp))
    · exact .inl (.inr (.inr ⟨other, hOld, hId⟩))
    · exact .inr hId.symm
  · rintro ((hInput | hOutp | ⟨other, hOld, hId⟩) | rfl)
    · exact .inl hInput
    · exact .inr (.inl hOutp)
    · exact .inr (.inr ⟨other, .inl hOld, hId⟩)
    · exact .inr (.inr ⟨node, .inr rfl, rfl⟩)

theorem Sound.isOpId_nextId (hS : g.Sound) : isOpId g.nextId = true := by
  simpa [isOpId] using hS.started

theorem Sound.appendNext (hS : g.Sound) (hN : node.Sound) (hId : node.id = g.nextId) :
    ({ g with ops := g.ops ++ [node], nextId := g.nextId + 1 } : Graph K).Sound := by
  refine (hS.raiseNextId (Nat.le_succ _)).appendOp hN (hId ▸ hS.isOpId_nextId) ?_ ?_
  · rw [hId]
    exact Nat.lt_succ_self _
  · intro hM
    rcases mem_map.mp hM with ⟨other, hOther, hEq⟩
    exact absurd (hS.issued other hOther) (by rw [hEq, hId]; exact Nat.lt_irrefl _)

---- Moving the Front ----

def reroute (n : Nat) : List Nat → Nat → List Pin → List Pin
  | [], _, front => front
  | line :: lines, i, front => reroute n lines (i + 1) (front.set line (.of n i))

theorem length_reroute (n : Nat) (lines : List Nat) (i : Nat) (front : List Pin) :
    (reroute n lines i front).length = front.length := by
  induction lines generalizing i front with
  | nil => rfl
  | cons line lines ih => rw [reroute, ih, length_set]

theorem getElem?_reroute_of_not_mem (hNot : line ∉ lines) :
    (reroute n lines i front)[line]? = front[line]? := by
  induction lines generalizing i front with
  | nil => rfl
  | cons first lines ih =>
    rw [mem_cons, not_or] at hNot
    rw [reroute, ih hNot.2, getElem?_set_ne (Ne.symm hNot.1)]

theorem getElem?_reroute (hNodup : lines.Nodup) (hAt : lines[j]? = some line)
    (hLine : line < front.length) : (reroute n lines i front)[line]? = some (.of n (i + j)) := by
  induction lines generalizing i j front with
  | nil => simp at hAt
  | cons first lines ih =>
    rw [nodup_cons] at hNodup
    cases j with
    | zero =>
      obtain rfl : first = line := by simpa using hAt
      rw [reroute, getElem?_reroute_of_not_mem hNodup.1, getElem?_set_self hLine]
      rfl
    | succ j =>
      rw [reroute, ih hNodup.2 (j := j) (by simpa using hAt) (by rwa [length_set])]
      congr 2
      omega

theorem getElem?_reroute_cases (hNodup : lines.Nodup)
    (hAt : (reroute n lines 0 front)[line]? = some p) :
    (line ∉ lines ∧ front[line]? = some p) ∨ ∃ j, lines[j]? = some line ∧ p = .of n j := by
  by_cases hM : line ∈ lines
  · rcases mem_iff_getElem?.mp hM with ⟨j, hLine⟩
    have hLt : line < front.length := by
      have := lt_of_getElem? hAt
      rwa [length_reroute] at this
    rw [getElem?_reroute hNodup hLine hLt, Nat.zero_add] at hAt
    exact .inr ⟨j, hLine, (Option.some.inj hAt).symm⟩
  · rw [getElem?_reroute_of_not_mem hM] at hAt
    exact .inl ⟨hM, hAt⟩

---- Fronts ----

/-
  A level whose lines have been led up to a front: every line
  has come to an unused pin of its type, and apart from these
  pins and the outputs of the graph every pin that needs a wire
  has one.  Wires lead to later operations.
-/
structure Frontier (types : List WireType) (front : List Pin) (g : Graph K) : Prop where
  sound : g.Sound
  inputs : g.inputs = types
  outputs : g.outputs = types
  length : front.length = types.length
  carries : ∀ (line : Nat) (p : Pin), front[line]? = some p → g.outType? p.place = types[line]?
  apart : (front.map Pin.place).Nodup
  unused : ∀ p ∈ front, ∀ w ∈ g.wires, w.src.place ≠ p.place
  ascending : ∀ w ∈ g.wires, w.src.node < w.dst.node ∧ isOpId w.dst.node = true
  fed : ∀ (place : Nat × Nat) (t : WireType), place.1 ≠ outputId → g.inType? place = some t →
    ∃ src, g.Wired src place
  used : ∀ place t, g.outType? place = some t → t ≠ .bool →
    (∃ dst, g.Wired place dst) ∨ ∃ p ∈ front, p.place = place
  issued : g.ops.map Node.id = List.range' 2 g.ops.length
  next : g.nextId = g.ops.length + 2
  owned : ∀ node ∈ g.ops, node.enclosing = none
  bodies : ∀ node ∈ g.ops, ∀ body, node.body = some body → body.WellFormed

theorem frontier_empty [Scalar K] (types : List WireType) :
    Frontier types ((List.range types.length).map (Pin.of inputId))
      (.empty types types : Graph K) where
  sound := (Reachable.empty types types).intact.sound
  inputs := rfl
  outputs := rfl
  length := by simp
  carries := by
    intro line p hAt
    rw [getElem?_map, Option.map_eq_some_iff] at hAt
    rcases hAt with ⟨i, hRange, rfl⟩
    obtain ⟨-, rfl⟩ : line < types.length ∧ line = i := by
      simpa [List.getElem?_eq_some_iff] using hRange
    simp [outType?, Pin.place, Pin.of, Pin.node, Pin.index, Slot.toNat, Graph.empty]
  apart := by
    rw [map_map]
    exact nodup_range.map (fun i j hEq => (Prod.mk.inj hEq).2)
  unused := by simp [Graph.empty]
  ascending := by simp [Graph.empty]
  fed := by
    rintro ⟨n, i⟩ t hN hType
    rcases mem_nodeIds_iff.mp (mem_nodeIds_of_inType? hType) with rfl | rfl | hOp
    · simp [inType?] at hType
    · exact absurd rfl hN
    · simp [opIds, Graph.empty, sortIds] at hOp
  used := by
    rintro ⟨n, i⟩ t hType -
    rcases mem_nodeIds_iff.mp (mem_nodeIds_of_outType? hType) with rfl | rfl | hOp
    · refine .inr ⟨.of inputId i, ?_, rfl⟩
      have hLt : i < types.length := by
        have hAt := lt_of_getElem? hType
        simpa [outType?, Graph.empty, List.getElem?_eq_some_iff] using hAt
      exact mem_map.mpr ⟨i, mem_range.mpr hLt, rfl⟩
    · simp [outType?] at hType
    · simp [opIds, Graph.empty, sortIds] at hOp
  issued := rfl
  next := rfl
  owned := by simp [Graph.empty]
  bodies := by simp [Graph.empty]

namespace Frontier

variable {types : List WireType}

theorem front_mem (hFr : Frontier types front g) (hM : p ∈ front) : p.node ∈ g.nodeIds := by
  rcases mem_iff_getElem?.mp hM with ⟨line, hAt⟩
  have hLt : line < types.length := hFr.length ▸ (lt_of_getElem? hAt)
  have hType := hFr.carries line p hAt
  rw [getElem?_eq_getElem hLt] at hType
  exact mem_nodeIds_of_outType? hType

theorem line_eq (hFr : Frontier types front g) {a b : Nat} {q : Pin}
    (hL : front[a]? = some p) (hR : front[b]? = some q) (hPlace : p.place = q.place) :
    a = b :=
  nodup_map_place_iff.mp hFr.apart a b p q hL hR hPlace

theorem node_ne_nextId (hFr : Frontier types front g) (hM : p ∈ front) : p.node ≠ g.nextId :=
  Nat.ne_of_lt (hFr.sound.lt_nextId (hFr.front_mem hM))

end Frontier

---- Operations at the Front ----

/-
  What it takes to put an operation at the front: its first
  places take control values, the others lines, and the lines
  go on from its first outputs.  All further outputs are
  control values.
-/
structure Admits (types : List WireType) (front : List Pin) (g : Graph K) (node : Node (Graph K))
    (controls : List Pin) (lines : List Nat) (srcs : List Pin) : Prop where
  sound : node.Sound
  next : node.id = g.nextId
  owned : node.enclosing = none
  body : ∀ b, node.body = some b → b.WellFormed
  controlled : ∀ p ∈ controls, g.outType? p.place = some .bool ∧
    (∀ w ∈ g.wires, w.src.place ≠ p.place) ∧ ∀ q ∈ front, q.place ≠ p.place
  apart : (controls.map Pin.place).Nodup
  distinct : lines.Nodup
  reached : lines.map (fun line => front[line]?) = srcs.map some
  inputs : node.signature.inputs.map some =
    controls.map (fun _ => some .bool) ++ lines.map (fun line => types[line]?)
  outputs : ∃ spare, node.signature.outputs.map some =
    lines.map (fun line => types[line]?) ++ spare ∧ ∀ t ∈ spare, t = some .bool

namespace Admits

variable {types : List WireType} {controls : List Pin}
section

variable (hAdm : Admits types front g node controls lines srcs)

include hAdm

theorem exists_line (hAt : srcs[j]? = some p) :
    ∃ line, lines[j]? = some line ∧ front[line]? = some p := by
  have hBoth := congrArg (fun l => l[j]?) hAdm.reached
  simp only [getElem?_map, hAt, Option.map_some] at hBoth
  cases hLine : lines[j]? with
  | none => simp [hLine] at hBoth
  | some line => exact ⟨line, rfl, by simpa [hLine] using hBoth⟩

theorem exists_source (hAt : lines[j]? = some line) :
    ∃ p, srcs[j]? = some p ∧ front[line]? = some p := by
  have hBoth := congrArg (fun l => l[j]?) hAdm.reached
  simp only [getElem?_map, hAt, Option.map_some] at hBoth
  cases hSrc : srcs[j]? with
  | none => simp [hSrc] at hBoth
  | some p => exact ⟨p, rfl, by simpa [hSrc] using hBoth⟩

theorem source_mem (hM : p ∈ srcs) : p ∈ front := by
  rcases mem_iff_getElem?.mp hM with ⟨j, hAt⟩
  rcases hAdm.exists_line hAt with ⟨line, -, hFront⟩
  exact mem_of_getElem? hFront

theorem getElem?_outputs (hAt : lines[j]? = some line) (hLine : line < types.length) :
    node.signature.outputs[j]? = types[line]? := by
  rcases hAdm.outputs with ⟨spare, hOuts, -⟩
  have hLt := lt_of_getElem? hAt
  have hBoth := congrArg (fun l => l[j]?) hOuts
  simp only [getElem?_map] at hBoth
  rw [getElem?_append_left (by simpa using hLt), getElem?_map, hAt, Option.map_some,
    getElem?_eq_getElem hLine] at hBoth
  rw [getElem?_eq_getElem hLine]
  cases hType : node.signature.outputs[j]? with
  | none => simp [hType] at hBoth
  | some t => simpa [hType] using hBoth

theorem lt_length_of_linear {t : WireType} (hType : node.signature.outputs[j]? = some t)
    (hLin : t ≠ .bool) : j < lines.length := by
  rcases hAdm.outputs with ⟨spare, hOuts, hSpare⟩
  have hBoth := congrArg (fun l => l[j]?) hOuts
  simp only [getElem?_map, hType, Option.map_some] at hBoth
  by_contra hGe
  rw [getElem?_append_right (by simpa using hGe)] at hBoth
  have hM := mem_of_getElem? hBoth.symm
  exact hLin (Option.some.inj (hSpare _ hM))

end

theorem wired_layer_of_wired {src dst : Nat × Nat} (hW : g.Wired src dst) :
    (g.layer node (controls ++ srcs)).Wired src dst := by
  rcases hW with ⟨w, hM, hSrc, hDst⟩
  exact ⟨w, mem_append_left _ hM, hSrc, hDst⟩

theorem wired_layer_of_source (hAt : (controls ++ srcs)[i]? = some p) :
    (g.layer node (controls ++ srcs)).Wired p.place (node.id, i) :=
  ⟨⟨p, .of node.id i⟩, mem_append_right _ (mem_entering_iff.mpr ⟨i, p, hAt, rfl⟩), rfl, rfl⟩

variable (hFr : Frontier types front g)
  (hAdm : Admits types front g node controls lines srcs)

include hFr hAdm

theorem map_outType? :
    (controls ++ srcs).map (fun p => g.outType? p.place) = node.signature.inputs.map some := by
  rw [hAdm.inputs, map_append]
  congr 1
  · exact map_congr_left (fun p hM => (hAdm.controlled p hM).1)
  · refine ext_getElem? (fun j => ?_)
    rw [getElem?_map, getElem?_map]
    cases hSrc : srcs[j]? with
    | none =>
      cases hLine : lines[j]? with
      | none => rfl
      | some line =>
        rcases hAdm.exists_source hLine with ⟨p, hSome, -⟩
        rw [hSrc] at hSome
        cases hSome
    | some p =>
      rcases hAdm.exists_line hSrc with ⟨line, hLine, hFront⟩
      rw [hLine, Option.map_some, Option.map_some, hFr.carries line p hFront]

theorem sources_apart : ((controls ++ srcs).map Pin.place).Nodup := by
  rw [map_append, nodup_append]
  refine ⟨hAdm.apart, ?_, ?_⟩
  · rw [nodup_map_place_iff]
    intro i j p q hL hR hPlace
    rcases hAdm.exists_line hL with ⟨a, hLineA, hA⟩
    rcases hAdm.exists_line hR with ⟨b, hLineB, hB⟩
    obtain rfl := hFr.line_eq hA hB hPlace
    exact (getElem?_inj (lt_of_getElem? hLineA) hAdm.distinct).mp (hLineA.trans hLineB.symm)
  · rintro place hControl place' hSrc rfl
    rcases mem_map.mp hControl with ⟨p, hP, rfl⟩
    rcases mem_map.mp hSrc with ⟨q, hQ, hPlace⟩
    exact (hAdm.controlled p hP).2.2 q (hAdm.source_mem hQ) hPlace

theorem sources_unused : ∀ p ∈ controls ++ srcs, ∀ w ∈ g.wires, w.src.place ≠ p.place := by
  intro p hM
  rcases mem_append.mp hM with hControl | hSrc
  · exact (hAdm.controlled p hControl).2.1
  · exact hFr.unused p (hAdm.source_mem hSrc)

theorem sources_node_mem : ∀ p ∈ controls ++ srcs, p.node ∈ g.nodeIds := by
  intro p hM
  rcases mem_append.mp hM with hControl | hSrc
  · exact mem_nodeIds_of_outType? (hAdm.controlled p hControl).1
  · exact hFr.front_mem (hAdm.source_mem hSrc)

theorem signatureOf_layer :
    (g.layer node (controls ++ srcs)).signatureOf node.id = node.signature :=
  (hFr.sound.appendNext hAdm.sound hAdm.next).signatureOf_id
    (mem_append_right _ (mem_singleton_self _))

theorem sound_layer : (g.layer node (controls ++ srcs)).Sound := by
  have hMid := hFr.sound.appendNext hAdm.sound hAdm.next
  have hUnused := hAdm.sources_unused hFr
  refine hMid.appendEntering ?_ (hAdm.sources_apart hFr) hUnused ?_
  · intro i p hAt
    have hBoth := congrArg (fun l => l[i]?) (hAdm.map_outType? hFr)
    simp only [getElem?_map, hAt, Option.map_some] at hBoth
    have hOld : (g.layer node (controls ++ srcs)).outType? p.place = g.outType? p.place :=
      outType?_layer (hAdm.sources_node_mem hFr p (mem_of_getElem? hAt))
    have hNew := congrArg Signature.inputs (hAdm.signatureOf_layer hFr)
    cases hType : node.signature.inputs[i]? with
    | none => simp [hType] at hBoth
    | some t =>
      refine ⟨t, hOld.trans (by simpa [hType] using hBoth), ?_⟩
      exact (congrArg (fun l => l[i]?) hNew).trans hType
  · intro w hM hDst
    rcases hFr.sound.typed w hM with ⟨t, -, hIn⟩
    have hLt := hFr.sound.lt_nextId (mem_nodeIds_of_inType? hIn)
    rw [← hAdm.next] at hLt
    exact absurd hDst (Nat.ne_of_lt hLt)

theorem outType?_layer_new (i : Nat) :
    (g.layer node (controls ++ srcs)).outType? (node.id, i) = node.signature.outputs[i]? := by
  rw [outType?, hAdm.signatureOf_layer hFr]

theorem inType?_layer_new (i : Nat) :
    (g.layer node (controls ++ srcs)).inType? (node.id, i) = node.signature.inputs[i]? := by
  rw [inType?, hAdm.signatureOf_layer hFr]

theorem src_node_ne : ∀ w ∈ (g.layer node (controls ++ srcs)).wires, w.src.node ≠ g.nextId := by
  intro w hM
  have hSrc : w.src.node ∈ g.nodeIds := by
    rcases mem_append.mp hM with hOld | hNew
    · exact (hFr.sound.edge_mem ⟨w, hOld, rfl, rfl⟩).1
    · rcases mem_entering_iff.mp hNew with ⟨i, p, hAt, rfl⟩
      exact hAdm.sources_node_mem hFr p (mem_of_getElem? hAt)
  exact Nat.ne_of_lt (hFr.sound.lt_nextId hSrc)

theorem unused_layer : ∀ p ∈ reroute node.id lines 0 front,
    ∀ w ∈ (g.layer node (controls ++ srcs)).wires, w.src.place ≠ p.place := by
  intro p hFront w hM hPlace
  rcases mem_iff_getElem?.mp hFront with ⟨line, hAt⟩
  rcases getElem?_reroute_cases hAdm.distinct hAt with ⟨hOff, hOld⟩ | ⟨j, -, rfl⟩
  · rcases mem_append.mp hM with hWire | hNew
    · exact hFr.unused p (mem_of_getElem? hOld) w hWire hPlace
    · rcases mem_entering_iff.mp hNew with ⟨i, q, hQ, rfl⟩
      rcases mem_append.mp (mem_of_getElem? hQ) with hControl | hSrc
      · exact (hAdm.controlled q hControl).2.2 p (mem_of_getElem? hOld) hPlace.symm
      · rcases mem_iff_getElem?.mp hSrc with ⟨k, hK⟩
        rcases hAdm.exists_line hK with ⟨line', hLine, hFrontLine⟩
        obtain rfl := hFr.line_eq hOld hFrontLine hPlace.symm
        exact hOff (mem_of_getElem? hLine)
  · refine hAdm.src_node_ne hFr w hM ?_
    exact (congrArg Prod.fst hPlace).trans hAdm.next

theorem used_layer : ∀ place t, (g.layer node (controls ++ srcs)).outType? place = some t →
    t ≠ .bool → (∃ dst, (g.layer node (controls ++ srcs)).Wired place dst) ∨
      ∃ p ∈ reroute node.id lines 0 front, p.place = place := by
  rintro ⟨n, i⟩ t hType hLin
  rcases mem_nodeIds_layer_iff.mp (mem_nodeIds_of_outType? hType) with hOld | rfl
  · rw [outType?_layer hOld] at hType
    rcases hFr.used (n, i) t hType hLin with ⟨dst, hW⟩ | ⟨p, hM, hPlace⟩
    · exact .inl ⟨dst, wired_layer_of_wired hW⟩
    · rcases mem_iff_getElem?.mp hM with ⟨line, hAt⟩
      by_cases hLine : line ∈ lines
      · rcases mem_iff_getElem?.mp hLine with ⟨j, hJ⟩
        rcases hAdm.exists_source hJ with ⟨q, hQ, hSame⟩
        obtain rfl : p = q := eq_of_some hAt hSame
        have hSource : (controls ++ srcs)[controls.length + j]? = some p := by
          rw [getElem?_append_right (Nat.le_add_right _ _), Nat.add_sub_cancel_left, hQ]
        exact .inl ⟨_, hPlace ▸ wired_layer_of_source hSource⟩
      · rw [← getElem?_reroute_of_not_mem (n := node.id) (i := 0) hLine] at hAt
        exact .inr ⟨p, mem_of_getElem? hAt, hPlace⟩
  · rw [hAdm.outType?_layer_new hFr] at hType
    have hLt := hAdm.lt_length_of_linear hType hLin
    rcases hAdm.exists_source (getElem?_eq_getElem hLt) with ⟨q, -, hFront⟩
    have hNew := getElem?_reroute (n := node.id) (i := 0) hAdm.distinct
      (getElem?_eq_getElem hLt) (lt_of_getElem? hFront)
    exact .inr ⟨_, mem_of_getElem? hNew, by rw [Nat.zero_add]; rfl⟩

theorem frontier_layer :
    Frontier types (reroute node.id lines 0 front) (g.layer node (controls ++ srcs)) where
  sound := hAdm.sound_layer hFr
  inputs := hFr.inputs
  outputs := hFr.outputs
  length := (length_reroute _ _ _ _).trans hFr.length
  carries := by
    intro line p hAt
    have hLt : line < types.length := by
      rw [← hFr.length, ← length_reroute node.id lines 0 front]
      exact lt_of_getElem? hAt
    rcases getElem?_reroute_cases hAdm.distinct hAt with ⟨-, hOld⟩ | ⟨j, hLine, rfl⟩
    · rw [outType?_layer (hFr.front_mem (mem_of_getElem? hOld))]
      exact hFr.carries line p hOld
    · exact (hAdm.outType?_layer_new hFr j).trans (hAdm.getElem?_outputs hLine hLt)
  apart := by
    rw [nodup_map_place_iff]
    intro a b p q hL hR hPlace
    rcases getElem?_reroute_cases hAdm.distinct hL with ⟨-, hA⟩ | ⟨i, hA, rfl⟩ <;>
      rcases getElem?_reroute_cases hAdm.distinct hR with ⟨-, hB⟩ | ⟨j, hB, rfl⟩
    · exact hFr.line_eq hA hB hPlace
    · refine absurd ?_ (hFr.node_ne_nextId (mem_of_getElem? hA))
      exact (congrArg Prod.fst hPlace).trans hAdm.next
    · refine absurd ?_ (hFr.node_ne_nextId (mem_of_getElem? hB))
      exact (congrArg Prod.fst hPlace).symm.trans hAdm.next
    · obtain rfl : i = j := congrArg Prod.snd hPlace
      exact eq_of_some hA hB
  unused := hAdm.unused_layer hFr
  ascending := by
    intro w hM
    rcases mem_append.mp hM with hOld | hNew
    · exact hFr.ascending w hOld
    · rcases mem_entering_iff.mp hNew with ⟨i, p, hAt, rfl⟩
      have hN := hAdm.sources_node_mem hFr p (mem_of_getElem? hAt)
      refine ⟨?_, ?_⟩
      · change p.node < node.id
        rw [hAdm.next]
        exact hFr.sound.lt_nextId hN
      · change isOpId node.id = true
        rw [hAdm.next]
        exact hFr.sound.isOpId_nextId
  fed := by
    rintro ⟨n, i⟩ t hNot hType
    rcases mem_nodeIds_layer_iff.mp (mem_nodeIds_of_inType? hType) with hOld | rfl
    · rw [inType?_layer hOld] at hType
      rcases hFr.fed (n, i) t hNot hType with ⟨src, hW⟩
      exact ⟨src, wired_layer_of_wired hW⟩
    · rw [hAdm.inType?_layer_new hFr] at hType
      have hLen := congrArg List.length (hAdm.map_outType? hFr)
      rw [length_map, length_map] at hLen
      have hLt := lt_of_getElem? hType
      rw [← hLen] at hLt
      exact ⟨_, wired_layer_of_source (getElem?_eq_getElem hLt)⟩
  used := hAdm.used_layer hFr
  issued := by
    change (g.ops ++ [node]).map Node.id = List.range' 2 (g.ops ++ [node]).length
    rw [map_append, hFr.issued, length_append, length_singleton,
      range'_concat, map_singleton, hAdm.next, hFr.next, Nat.one_mul,
      Nat.add_comm]
  next := by
    rw [layer, length_append, hFr.next]
    rfl
  owned := by
    intro other hM
    rcases mem_append.mp hM with hOld | hNew
    · exact hFr.owned other hOld
    · rw [mem_singleton.mp hNew]
      exact hAdm.owned
  bodies := by
    intro other hM body hBody
    rcases mem_append.mp hM with hOld | hNew
    · exact hFr.bodies other hOld body hBody
    · rw [mem_singleton.mp hNew] at hBody
      exact hAdm.body body hBody

end Admits

---- Closing a Level ----

def close (g : Graph K) (front : List Pin) : Graph K :=
  { g with wires := g.wires ++ entering outputId 0 front }

namespace Frontier

variable {types : List WireType}

theorem sound_close (hFr : Frontier types front g) : (g.close front).Sound := by
  refine hFr.sound.appendEntering ?_ hFr.apart hFr.unused ?_
  · intro i p hAt
    have hLt : i < types.length := hFr.length ▸ (lt_of_getElem? hAt)
    refine ⟨types[i], ?_, ?_⟩
    · rw [hFr.carries i p hAt, getElem?_eq_getElem hLt]
    · rw [inType?, signatureOf_outputId, hFr.outputs, getElem?_eq_getElem hLt]
  · intro w hM hN
    have hOp := (hFr.ascending w hM).2
    rw [hN] at hOp
    exact absurd hOp (by decide)

theorem wired_close_of_wired {src dst : Nat × Nat} (hW : g.Wired src dst) :
    (g.close front).Wired src dst := by
  rcases hW with ⟨w, hM, hSrc, hDst⟩
  exact ⟨w, mem_append_left _ hM, hSrc, hDst⟩

theorem wired_close_of_front (hAt : front[i]? = some p) :
    (g.close front).Wired p.place (outputId, i) :=
  ⟨⟨p, .of outputId i⟩, mem_append_right _ (mem_entering_iff.mpr ⟨i, p, hAt, rfl⟩), rfl, rfl⟩

section

variable (hFr : Frontier types front g)

include hFr

theorem complete_close : (g.close front).Complete where
  fed := by
    rintro ⟨n, i⟩ t hType
    by_cases hN : n = outputId
    · subst hN
      rw [inType?, signatureOf_outputId] at hType
      have hLt : i < front.length := by
        rw [hFr.length, ← hFr.outputs]
        exact lt_of_getElem? hType
      exact ⟨_, wired_close_of_front (getElem?_eq_getElem hLt)⟩
    · rcases hFr.fed (n, i) t hN hType with ⟨src, hW⟩
      exact ⟨src, wired_close_of_wired hW⟩
  used := by
    intro place t hType hLin
    rcases hFr.used place t hType hLin with ⟨dst, hW⟩ | ⟨p, hM, rfl⟩
    · exact ⟨dst, wired_close_of_wired hW⟩
    · rcases mem_iff_getElem?.mp hM with ⟨i, hAt⟩
      exact ⟨_, wired_close_of_front hAt⟩

theorem ascending_close :
    ∀ w ∈ (g.close front).wires, w.src.node < w.dst.node ∨ w.dst.node = outputId := by
  intro w hM
  rcases mem_append.mp hM with hOld | hNew
  · exact .inl (hFr.ascending w hOld).1
  · rcases mem_entering_iff.mp hNew with ⟨i, p, hAt, rfl⟩
    exact .inr rfl

theorem wellFormed_close : (g.close front).WellFormed :=
  .intro _ hFr.complete_close (hFr.sound_close.acyclic_of_ascending hFr.ascending_close)
    hFr.owned hFr.bodies

theorem opIds_close : (g.close front).opIds = g.ops.map Node.id := by
  refine sortIds_of_pairwise ?_
  change (g.ops.map Node.id).Pairwise (· < ·)
  rw [hFr.issued]
  exact pairwise_lt_range'

end

end Frontier

end Graph

end CircuitGraph
