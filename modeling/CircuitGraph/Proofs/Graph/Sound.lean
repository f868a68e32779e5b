import CircuitGraph.Proofs.Graph.Wiring

/-
  What edits keep of a graph.

  A sound level has unique ids that were given out, and its
  wires join pins that exist and carry one type.
-/

---- Sound Levels ----

namespace CircuitGraph

open List

variable {K : Type}

/-
  An operation as it can be added: the parameters fit the
  kind, and a container has a body or belongs to it.
-/
structure Node.Sound (node : Node (Graph K)) : Prop where
  inner : node.kind.isBoundary = false
  params : node.params.length = node.kind.arity
  body : node.kind.isContainer = node.hasBody
  owned : node.body = none ∨ node.enclosing = none

namespace Graph

/- One level of a graph as edits leave it. -/
structure Sound (g : Graph K) : Prop where
  nodes : ∀ node ∈ g.ops, node.Sound
  unique : (g.ops.map Node.id).Nodup
  operation : ∀ node ∈ g.ops, isOpId node.id = true
  issued : ∀ node ∈ g.ops, node.id < g.nextId
  started : outputId < g.nextId
  typed : ∀ w ∈ g.wires, ∃ t,
    g.outType? w.src.place = some t ∧ g.inType? w.dst.place = some t
  single : (g.wires.map (fun w => w.dst.place)).Nodup
  linear : ∀ v ∈ g.wires, ∀ w ∈ g.wires, v.src.place = w.src.place →
    g.outType? v.src.place ≠ some .bool → v = w

/- A graph that is sound at every level. -/
inductive Intact : Graph K → Prop where
  | intro (g : Graph K) (sound : g.Sound)
      (bodies : ∀ node ∈ g.ops, ∀ body, node.body = some body → Intact body) :
      Intact g

theorem Intact.sound {g : Graph K} (hI : g.Intact) : g.Sound := by
  cases hI with
  | intro _ hS _ => exact hS

theorem Intact.body {g : Graph K} (hI : g.Intact) {node : Node (Graph K)} {body : Graph K}
    (hN : node ∈ g.ops) (hB : node.body = some body) : body.Intact := by
  cases hI with
  | intro _ _ hBodies => exact hBodies node hN body hB

theorem nested_induction {motive : Graph K → Prop}
    (step : ∀ g, (∀ node ∈ g.ops, ∀ body, node.body = some body → motive body) → motive g)
    (g : Graph K) : motive g := by
  induction hSize : sizeOf g using Nat.strongRecOn generalizing g with
  | _ size ih =>
    refine step g (fun node hN body hB => ih (sizeOf body) ?_ body rfl)
    exact hSize ▸ sizeOf_body_lt hN hB

end Graph

---- Kinds and Bodies ----

namespace Kind

theorem exists_signature {kind : Kind} (hIn : kind.isBoundary = false)
    (hGate : kind.isContainer = false) : ∃ sig, kind.signature? = some sig := by
  cases kind <;> simp_all [isBoundary, isContainer, signature?]

theorem container_cases {kind : Kind} (hCont : kind.isContainer = true) :
    kind = region ∨ kind = conditional := by
  cases kind <;> simp_all [isContainer]

end Kind

namespace Node

variable {node : Node (Graph K)}

theorem signature_gate (hGate : node.kind.isContainer = false) :
    node.signature = node.kind.signature?.getD ⟨[], []⟩ := by
  unfold signature
  split <;> simp_all [Kind.isContainer]

theorem Sound.exists_body (hS : node.Sound) (hOwned : node.enclosing = none)
    (hCont : node.kind.isContainer = true) :
    ∃ body, node.body = some body ∧ node.boundary? = some body.signature := by
  have hHas : node.boundary?.isSome = true := by
    rw [← hCont, hS.body]
    rfl
  cases hB : node.body with
  | none => simp [boundary?, hB, hOwned] at hHas
  | some body => exact ⟨body, rfl, by simp [boundary?, hB]⟩

theorem Sound.body_eq_none (hS : node.Sound) (hGate : node.kind.isContainer = false) :
    node.body = none := by
  cases hB : node.body with
  | none => rfl
  | some body =>
    have hHas := hS.body
    simp [hGate, hasBody, boundary?, hB] at hHas

theorem Sound.body_of_isGate (hS : node.Sound) (hGate : node.kind.isGate = true) :
    node.body = none := by
  refine hS.body_eq_none ?_
  revert hGate
  cases node.kind <;> decide

end Node

---- Nodes of Sound Levels ----

namespace Graph

namespace Sound

variable {g : Graph K}

section

variable (hS : g.Sound)

include hS

theorem op?_iff {n : Nat} {node : Node (Graph K)} :
    g.op? n = some node ↔ node ∈ g.ops ∧ node.id = n :=
  find?_key_eq_some_iff hS.unique

theorem op?_id {node : Node (Graph K)} (hN : node ∈ g.ops) : g.op? node.id = some node :=
  hS.op?_iff.mpr ⟨hN, rfl⟩

theorem id_ne {node : Node (Graph K)} (hN : node ∈ g.ops) :
    node.id ≠ inputId ∧ node.id ≠ outputId := by
  have hOp := isOpId_iff.mp (hS.operation node hN)
  simp only [inputId, outputId]
  omega

theorem ne_boundary {n : Nat} (hM : n ∈ g.opIds) : n ≠ inputId ∧ n ≠ outputId := by
  rcases mem_opIds_iff.mp hM with ⟨node, hN, rfl⟩
  exact hS.id_ne hN

theorem signatureOf_id {node : Node (Graph K)} (hN : node ∈ g.ops) :
    g.signatureOf node.id = node.signature := by
  have hNe := hS.id_ne hN
  simp [signatureOf, signatureOf?, hNe.1, hNe.2, hS.op?_id hN]

theorem kindOf?_id {node : Node (Graph K)} (hN : node ∈ g.ops) :
    g.kindOf? node.id = some node.kind := by
  have hNe := hS.id_ne hN
  simp [kindOf?, hNe.1, hNe.2, hS.op?_id hN]

theorem paramsOf_id {node : Node (Graph K)} (hN : node ∈ g.ops) :
    g.paramsOf node.id = node.params := by
  simp [paramsOf, hS.op?_id hN]

theorem isOpId_of_mem_opIds {n : Nat} (hM : n ∈ g.opIds) : isOpId n = true := by
  rcases mem_opIds_iff.mp hM with ⟨node, hN, rfl⟩
  exact hS.operation node hN

theorem mem_opIds_iff_isOpId {n : Nat} (hM : n ∈ g.nodeIds) : n ∈ g.opIds ↔ isOpId n = true := by
  constructor
  · exact hS.isOpId_of_mem_opIds
  · intro hOp
    rcases mem_nodeIds_iff.mp hM with rfl | rfl | hOps
    · simp [isOpId, inputId, outputId] at hOp
    · simp [isOpId] at hOp
    · exact hOps

theorem nodeIds_nodup : g.nodeIds.Nodup := by
  have hOps : ∀ n ∈ g.opIds, 2 ≤ n := fun n hM =>
    isOpId_iff.mp (hS.isOpId_of_mem_opIds hM)
  rw [nodeIds, nodup_cons, nodup_cons]
  refine ⟨?_, ?_, sortIds_nodup _⟩
  · intro hM
    rcases mem_cons.mp hM with hEq | hM
    · simp [inputId, outputId] at hEq
    · have := hOps _ hM
      simp [inputId] at this
  · intro hM
    have := hOps _ hM
    simp [outputId] at this

end

end Sound

---- Nested Graphs of Sound Levels ----

variable {g : Graph K}

theorem valueOf?_filterMap_id {α : Type} {ops : List (Node (Graph K))}
    (hUniq : (ops.map Node.id).Nodup) (value : Node (Graph K) → Option α) {node : Node (Graph K)}
    (hN : node ∈ ops) :
    valueOf? (ops.filterMap (fun node => (value node).map (fun a => (node.id, a)))) node.id =
      value node := by
  induction ops with
  | nil => simp at hN
  | cons first rest ih =>
    rw [map_cons, nodup_cons] at hUniq
    rcases mem_cons.mp hN with rfl | hRest
    · cases hValue : value node with
      | some a => simp [valueOf?, hValue]
      | none =>
        rw [valueOf?_eq_none_iff]
        intro hM
        rcases mem_map.mp hM with ⟨⟨m, a⟩, hEntry, hKey⟩
        rcases mem_filterMap.mp hEntry with ⟨other, hOther, hPair⟩
        rcases mem_cons.mp hOther with rfl | hOther
        · simp [hValue] at hPair
        · rcases Option.map_eq_some_iff.mp hPair with ⟨b, -, hEq⟩
          obtain ⟨rfl, -⟩ := Prod.mk.inj hEq
          exact hUniq.1 (mem_map.mpr ⟨other, hOther, hKey⟩)
    · have hNe : first.id ≠ node.id := by
        intro hEq
        exact hUniq.1 (hEq ▸ mem_map_of_mem hRest)
      rw [← ih hUniq.2 hRest, filterMap_cons]
      cases value first with
      | none => rfl
      | some a => simp [valueOf?, hNe]

theorem opIds_nodup (g : Graph K) : g.opIds.Nodup :=
  sortIds_nodup _

/- The values of the nested graphs, by the ids of their containers. -/
def bodyValues {α : Type} (value : Graph K → α) (g : Graph K) : List (Nat × α) :=
  g.bodies.map (fun entry => (entry.1, value entry.2))

/- The same, with a value for containers whose bodies are graphs around them. -/
def nestedValues {α : Type} (value : Graph K → α) (endless : α) (g : Graph K) : List (Nat × α) :=
  g.bodyValues value ++ g.enclosed.map (fun n => (n, endless))

theorem foldWith_eq {α : Type} (endless : α) (step : Graph K → List (Nat × α) → α) (g : Graph K) :
    g.foldWith endless step = step g (g.nestedValues (foldWith endless step) endless) :=
  fold_eq _ g

theorem valueOf?_map_bodies (hUniq : (g.ops.map Node.id).Nodup) {α : Type} (value : Graph K → α)
    {node : Node (Graph K)} (hN : node ∈ g.ops) :
    valueOf? (g.bodyValues value) node.id = node.body.map value := by
  rw [← valueOf?_filterMap_id hUniq (fun node => node.body.map value) hN, bodyValues, bodies,
    map_filterMap]
  simp [Function.comp_def]

namespace Sound

variable {α : Type}

theorem valueOf?_bodies (hS : g.Sound) (value : Graph K → α) {node : Node (Graph K)}
    (hN : node ∈ g.ops) :
    valueOf? (g.bodyValues value) node.id = node.body.map value :=
  valueOf?_map_bodies hS.unique value hN

theorem valueOf?_enclosed (hS : g.Sound) (a : α) {node : Node (Graph K)} (hN : node ∈ g.ops) :
    valueOf? (g.enclosed.map (fun n => (n, a))) node.id = node.enclosing.map (fun _ => a) := by
  rw [← valueOf?_filterMap_id hS.unique (fun node => node.enclosing.map (fun _ => a)) hN]
  congr 1
  rw [enclosed, map_map]
  induction g.ops with
  | nil => rfl
  | cons first rest ih =>
    cases hFirst : first.enclosing <;> simp [hFirst, ih]

theorem valueOf?_nested (hS : g.Sound) (value : Graph K → α) (endless : α)
    {node : Node (Graph K)} (hN : node ∈ g.ops) :
    valueOf? (g.nestedValues value endless) node.id =
      (node.body.map value).or (node.enclosing.map (fun _ => endless)) := by
  rw [nestedValues, valueOf?_append, hS.valueOf?_bodies value hN, hS.valueOf?_enclosed endless hN]

---- Wires of Sound Levels ----

section

variable (hS : g.Sound)

include hS

theorem wireInto?_iff {n i : Nat} {w : Wire} :
    g.wireInto? n i = some w ↔ w ∈ g.wires ∧ w.dst.place = (n, i) := by
  have hTest : (fun w : Wire => w.dst.node == n && w.dst.index == i) =
      fun w => w.dst.place == (n, i) := rfl
  rw [wireInto?, hTest]
  exact find?_key_eq_some_iff hS.single

theorem source?_iff {n i : Nat} {p : Pin} :
    g.source? n i = some p ↔ ∃ w ∈ g.wires, w.src = p ∧ w.dst.place = (n, i) := by
  rw [source?, Option.map_eq_some_iff]
  constructor
  · rintro ⟨w, hWire, hSrc⟩
    rcases hS.wireInto?_iff.mp hWire with ⟨hM, hDst⟩
    exact ⟨w, hM, hSrc, hDst⟩
  · rintro ⟨w, hM, hSrc, hDst⟩
    exact ⟨w, hS.wireInto?_iff.mpr ⟨hM, hDst⟩, hSrc⟩

theorem wired_iff_source? {n i : Nat} {src : Nat × Nat} :
    g.Wired src (n, i) ↔ ∃ p, g.source? n i = some p ∧ p.place = src := by
  constructor
  · rintro ⟨w, hM, hSrc, hDst⟩
    exact ⟨w.src, hS.source?_iff.mpr ⟨w, hM, rfl, hDst⟩, hSrc⟩
  · rintro ⟨p, hSource, hPlace⟩
    rcases hS.source?_iff.mp hSource with ⟨w, hM, rfl, hDst⟩
    exact ⟨w, hM, hPlace, hDst⟩

theorem wire_eq_of_dst {v w : Wire} (hL : v ∈ g.wires) (hR : w ∈ g.wires)
    (hDst : v.dst.place = w.dst.place) : v = w :=
  eq_of_key_eq hS.single hL hR hDst

theorem targets_nodup (n i : Nat) : ((g.targets n i).map Pin.place).Nodup := by
  have hDst : (((g.wiresFrom n i).map Wire.dst).map Pin.place).Nodup := by
    rw [map_map]
    exact hS.single.sublist (filter_sublist.map _)
  exact ((mergeSort_perm _ _).map _).nodup_iff.mpr hDst

theorem source_unique {a b dst : Nat × Nat} (hL : g.Wired a dst) (hR : g.Wired b dst) : a = b := by
  rcases hL with ⟨v, hL, rfl, rfl⟩
  rcases hR with ⟨w, hR, rfl, hDst⟩
  rw [hS.wire_eq_of_dst hR hL hDst]

theorem target_unique {src a b : Nat × Nat} (hL : g.Wired src a) (hR : g.Wired src b)
    (hLin : g.outType? src ≠ some .bool) : a = b := by
  rcases hL with ⟨v, hL, rfl, rfl⟩
  rcases hR with ⟨w, hR, hSrc, rfl⟩
  rw [hS.linear v hL w hR hSrc.symm hLin]

theorem wired_types {src dst : Nat × Nat} (hW : g.Wired src dst) :
    ∃ t, g.outType? src = some t ∧ g.inType? dst = some t := by
  rcases hW with ⟨w, hM, rfl, rfl⟩
  exact hS.typed w hM

theorem edge_mem {u v : Nat} (hEdge : g.Edge u v) : u ∈ g.nodeIds ∧ v ∈ g.nodeIds := by
  rcases hEdge with ⟨w, hM, rfl, rfl⟩
  rcases hS.typed w hM with ⟨t, hOut, hIn⟩
  exact ⟨mem_nodeIds_of_outType? hOut, mem_nodeIds_of_inType? hIn⟩

theorem not_edge_inputId (u : Nat) : ¬ g.Edge u inputId := by
  rintro ⟨w, hM, -, hDst⟩
  rcases hS.typed w hM with ⟨t, -, hIn⟩
  have hN : w.dst.place.1 = inputId := hDst
  simp [inType?, hN] at hIn

theorem not_edge_outputId (v : Nat) : ¬ g.Edge outputId v := by
  rintro ⟨w, hM, hSrc, -⟩
  rcases hS.typed w hM with ⟨t, hOut, -⟩
  have hN : w.src.place.1 = outputId := hSrc
  simp [outType?, hN] at hOut

theorem edge_source {u v : Nat} (hEdge : g.Edge u v) : u = inputId ∨ u ∈ g.opIds := by
  rcases mem_nodeIds_iff.mp (hS.edge_mem hEdge).1 with hIn | rfl | hOp
  · exact .inl hIn
  · exact absurd hEdge (hS.not_edge_outputId _)
  · exact .inr hOp

theorem edge_target {u v : Nat} (hEdge : g.Edge u v) : v = outputId ∨ v ∈ g.opIds := by
  rcases mem_nodeIds_iff.mp (hS.edge_mem hEdge).2 with rfl | hOut
  · exact absurd hEdge (hS.not_edge_inputId _)
  · exact hOut

end

end Sound

end Graph

end CircuitGraph
