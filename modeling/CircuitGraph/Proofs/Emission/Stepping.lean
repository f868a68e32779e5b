import CircuitGraph.Graph.ToCircuit
import CircuitGraph.Proofs.Emission.Execution
import CircuitGraph.Proofs.Graph.Measuring

/-
  The emission of a graph, one operation after the other.

  Emission goes through the operations of a level in order and
  keeps the lines at the output pins that it has come to.
-/

---- Recorded Lines ----

namespace CircuitGraph

open List

variable {ops : List Operation}

namespace LineMap

variable {m : LineMap} {n : Nat} {lines : List Line}

theorem record_eq (m : LineMap) (n : Nat) (lines : List Line) :
    m.record n lines = lines.zipIdx.map (fun entry => ((n, entry.2), entry.1)) ++ m :=
  rfl

theorem find_record_of_ne {place : Nat × Nat} (hNe : place.1 ≠ n) :
    (m.record n lines).find place = m.find place := by
  have hNone : (lines.zipIdx.map (fun entry => ((n, entry.2), entry.1))).find?
      (fun entry => entry.1 == place) = none := by
    rw [find?_eq_none]
    intro entry hEntry
    rcases mem_map.mp hEntry with ⟨pair, -, rfl⟩
    simp only [beq_iff_eq]
    rintro rfl
    exact hNe rfl
  rw [find, record_eq, find?_append, hNone, Option.none_or, ← find]

theorem find_record_self {i : Nat} {l : Line} (hLine : lines[i]? = some l) :
    (m.record n lines).find (n, i) = .ok l := by
  have hKeys : ((lines.zipIdx.map (fun entry => ((n, entry.2), entry.1))).map Prod.fst).Nodup := by
    rw [map_map]
    have hRange : lines.zipIdx.map (Prod.fst ∘ fun entry => ((n, entry.2), entry.1)) =
        (List.range' 0 lines.length).map (fun i => (n, i)) := by
      rw [← zipIdx_map_snd, map_map]
      rfl
    rw [hRange]
    exact (nodup_range').map (fun i j hSame => (Prod.mk.inj hSame).2)
  have hSome : (lines.zipIdx.map (fun entry => ((n, entry.2), entry.1))).find?
      (fun entry => entry.1 == (n, i)) = some ((n, i), l) := by
    rw [find?_key_eq_some_iff hKeys]
    refine ⟨mem_map.mpr ⟨(l, i), ?_, rfl⟩, rfl⟩
    exact mem_zipIdx_iff_getElem?.mpr hLine
  rw [find, record_eq, find?_append, hSome]
  rfl

theorem getElem?_of_find_record {i : Nat} {l : Line} (hNew : ∀ l', m.find (n, i) ≠ .ok l')
    (hFnd : (m.record n lines).find (n, i) = .ok l) : lines[i]? = some l := by
  cases hLine : lines[i]? with
  | some l' =>
    rw [find_record_self hLine] at hFnd
    cases hFnd
    rfl
  | none =>
    have hNone : (lines.zipIdx.map (fun entry => ((n, entry.2), entry.1))).find?
        (fun entry => entry.1 == (n, i)) = none := by
      rw [find?_eq_none]
      intro entry hEntry
      rcases mem_map.mp hEntry with ⟨pair, hPair, rfl⟩
      simp only [beq_iff_eq]
      intro hSame
      rw [mem_zipIdx_iff_getElem?, (Prod.mk.inj hSame).2, hLine] at hPair
      cases hPair
    rw [find, record_eq, find?_append, hNone, Option.none_or, ← find] at hFnd
    exact absurd hFnd (hNew l)

end LineMap

---- Steps ----

namespace Graph

variable {K : Type}

def emissions (qubits : Nat) (g : Graph K) : List (Nat × Emission) :=
  g.nestedValues (linearize qubits) emitAgain

def emitStep (qubits : Nat) (g : Graph K) (condition : Option Index)
    (state : LineMap × List Operation) (n : Nat) : Except Fault (LineMap × List Operation) :=
  match g.op? n with
  | none => pure state
  | some node => do
    let lines ← (List.range node.signature.inputs.length).mapM (g.lineInto state.1 n)
    let (emitted, outs) ← emitNode qubits node (valueOf? (g.emissions qubits) n) condition lines
    return (LineMap.record state.1 n outs, state.2 ++ emitted)

variable {g : Graph K} {qubits : Nat} {condition : Option Index}

theorem Sound.emitStep_eq_ok_iff (hS : g.Sound) {node : Node (Graph K)} (hN : node ∈ g.ops)
    (hOwned : node.enclosing = none) {state state' : LineMap × List Operation} :
    g.emitStep qubits condition state node.id = .ok state' ↔ ∃ lines emitted outs,
        (List.range node.signature.inputs.length).mapM (g.lineInto state.1 node.id) = .ok lines ∧
        emitNode qubits node (node.body.map (linearize qubits)) condition lines =
          .ok (emitted, outs) ∧
        state' = (LineMap.record state.1 node.id outs, state.2 ++ emitted) := by
  have hB : valueOf? (g.emissions qubits) node.id = node.body.map (linearize qubits) := by
    rw [emissions, hS.valueOf?_nested (linearize qubits) emitAgain hN, hOwned,
      Option.map_none, Option.or_none]
  simp only [emitStep, hS.op?_id hN, hB]
  constructor
  · intro hStep
    rcases bind_eq_ok_iff.mp hStep with ⟨lines, hLines, hRest⟩
    rcases bind_eq_ok_iff.mp hRest with ⟨⟨emitted, outs⟩, hEmit, hPure⟩
    cases hPure
    exact ⟨lines, emitted, outs, hLines, hEmit, rfl⟩
  · rintro ⟨lines, emitted, outs, hLines, hEmit, rfl⟩
    exact bind_eq_ok_iff.mpr ⟨lines, hLines, bind_eq_ok_iff.mpr ⟨(emitted, outs), hEmit, rfl⟩⟩

theorem linearize_eq (qubits : Nat) (g : Graph K) (lines : List Line) (condition : Option Index) :
    g.linearize qubits lines condition = (do
      let order ← g.operationOrder
      let (m, ops) ← order.foldlM (g.emitStep qubits condition)
        (LineMap.record [] inputId lines, [])
      let outs ← (List.range g.outputs.length).mapM (g.lineInto m outputId)
      return (ops, outs)) := by
  rw [linearize, foldWith_eq]
  rfl

theorem linearize_eq_ok_iff {lines : List Line} {outs : List Line} :
    g.linearize qubits lines condition = .ok (ops, outs) ↔ ∃ order m, g.operationOrder = .ok order ∧
        order.foldlM (g.emitStep qubits condition) (LineMap.record [] inputId lines, []) =
          .ok (m, ops) ∧
        (List.range g.outputs.length).mapM (g.lineInto m outputId) = .ok outs := by
  rw [linearize_eq]
  constructor
  · intro hEmit
    rcases bind_eq_ok_iff.mp hEmit with ⟨order, hOrder, hRest⟩
    rcases bind_eq_ok_iff.mp hRest with ⟨⟨m, all⟩, hFold, hLast⟩
    rcases bind_eq_ok_iff.mp hLast with ⟨outs', hOuts, hPure⟩
    cases hPure
    exact ⟨order, m, hOrder, hFold, hOuts⟩
  · rintro ⟨order, m, hOrder, hFold, hOuts⟩
    refine bind_eq_ok_iff.mpr ⟨order, hOrder, bind_eq_ok_iff.mpr ⟨(m, ops), hFold, ?_⟩⟩
    exact bind_eq_ok_iff.mpr ⟨outs, hOuts, rfl⟩

end Graph

---- Conditions ----

/-
  Under a condition an emission gives what it gives without
  one, with the condition on every operation.
-/
def Emission.Uniform (emit : Emission) : Prop :=
  ∀ k lines ops outs, emit lines (some k) = .ok (ops, outs) →
    ∃ plain, emit lines none = .ok (plain, outs) ∧ ops = plain.map (Operation.under k) ∧
      ∀ op ∈ plain, op.condition = none

namespace Graph

variable {K : Type} {qubits : Nat} {g : Graph K}

theorem emitAgain_uniform : emitAgain.Uniform := by
  intro k lines ops outs hEmit
  cases hEmit

theorem emitNode_uniform {node : Node (Graph K)} {body : Option Emission}
    (hB : ∀ emit, body = some emit → emit.Uniform) :
    Emission.Uniform (fun lines condition => emitNode qubits node body condition lines) := by
  intro k lines ops outs hEmit
  dsimp only at hEmit ⊢
  unfold emitNode at hEmit ⊢
  split at hEmit
  · cases hEmit
    simp
  · next emit hRegion =>
    exact hB emit rfl k _ ops outs hEmit
  · -- A condition inside of a condition is refused.
    split at hEmit
    · next hCondition => cases hCondition
    · cases hEmit
  · cases hEmit
    simp [Operation.under]
  · cases hEmit
    simp [Operation.under]

theorem mem_emissions {n : Nat} {emit : Emission} (hM : (n, emit) ∈ g.emissions qubits) :
    emit = emitAgain ∨ ∃ node ∈ g.ops, ∃ body, node.body = some body ∧ emit = body.linearize qubits := by
  rcases mem_append.mp hM with hB | hEnclosed
  · rcases mem_map.mp hB with ⟨⟨m, body⟩, hBodies, hSame⟩
    cases hSame
    rcases mem_bodies_iff.mp hBodies with ⟨node, hN, -, hOwn⟩
    exact .inr ⟨node, hN, body, hOwn, rfl⟩
  · rcases mem_map.mp hEnclosed with ⟨m, -, hSame⟩
    cases hSame
    exact .inl rfl

section

variable {plain : List Operation}
  (hBodies : ∀ node ∈ g.ops, ∀ body, node.body = some body → (body.linearize qubits).Uniform)
  (hPlain : ∀ op ∈ plain, op.condition = none)

include hBodies hPlain

theorem emitStep_uniform {k : Index} {m m' : LineMap} {n : Nat}
    (hStep : g.emitStep qubits (some k) (m, plain.map (Operation.under k)) n = .ok (m', ops)) :
    ∃ plain', g.emitStep qubits none (m, plain) n = .ok (m', plain') ∧
      ops = plain'.map (Operation.under k) ∧ ∀ op ∈ plain', op.condition = none := by
  unfold emitStep at hStep ⊢
  split at hStep
  · next hNone =>
    cases hStep
    exact ⟨plain, rfl, rfl, hPlain⟩
  · next node hN =>
    rcases bind_eq_ok_iff.mp hStep with ⟨lines, hLines, hRest⟩
    rcases bind_eq_ok_iff.mp hRest with ⟨⟨emitted, outs⟩, hEmitted, hPure⟩
    cases hPure
    have hUniform : ∀ emit, valueOf? (g.emissions qubits) n = some emit → emit.Uniform := by
      intro emit hEmit
      rcases mem_emissions (mem_of_valueOf?_eq_some hEmit) with rfl | ⟨owner, hOwner, body, hB, rfl⟩
      · exact emitAgain_uniform
      · exact hBodies owner hOwner body hB
    rcases emitNode_uniform hUniform k lines emitted outs hEmitted with ⟨bare, hBare, rfl, hNone⟩
    refine ⟨plain ++ bare, ?_, by rw [map_append], ?_⟩
    · exact bind_eq_ok_iff.mpr ⟨lines, hLines, bind_eq_ok_iff.mpr ⟨(bare, outs), hBare, rfl⟩⟩
    · intro op hOp
      rcases mem_append.mp hOp with hOld | hNew
      · exact hPlain op hOld
      · exact hNone op hNew

theorem foldlM_emitStep_uniform {k : Index} {m m' : LineMap} {order : List Nat}
    (hFold : order.foldlM (g.emitStep qubits (some k)) (m, plain.map (Operation.under k)) =
      .ok (m', ops)) :
    ∃ plain', order.foldlM (g.emitStep qubits none) (m, plain) = .ok (m', plain') ∧
      ops = plain'.map (Operation.under k) ∧ ∀ op ∈ plain', op.condition = none := by
  induction order generalizing m plain with
  | nil =>
    cases hFold
    exact ⟨plain, rfl, rfl, hPlain⟩
  | cons n order ih =>
    rw [foldlM_cons] at hFold ⊢
    rcases bind_eq_ok_iff.mp hFold with ⟨⟨m₁, ops₁⟩, hStep, hRest⟩
    rcases emitStep_uniform hBodies hPlain hStep with ⟨plain₁, hStep₁, rfl, hPlain₁⟩
    rcases ih hPlain₁ hRest with ⟨plain', hRest', hOps, hPlain'⟩
    exact ⟨plain', bind_eq_ok_iff.mpr ⟨(m₁, plain₁), hStep₁, hRest'⟩, hOps, hPlain'⟩

end

theorem linearize_uniform (g : Graph K) : (g.linearize qubits).Uniform := by
  induction g using nested_induction with
  | step g ih =>
    intro k lines ops outs hEmit
    rcases linearize_eq_ok_iff.mp hEmit with ⟨order, m, hOrder, hFold, hOuts⟩
    have hStart : ∀ op ∈ ([] : List Operation), op.condition = none := by simp
    rcases foldlM_emitStep_uniform ih hStart hFold with ⟨plain, hPlain, hOps, hNone⟩
    exact ⟨plain, linearize_eq_ok_iff.mpr ⟨order, m, hOrder, hPlain, hOuts⟩, hOps, hNone⟩

end Graph

end CircuitGraph
