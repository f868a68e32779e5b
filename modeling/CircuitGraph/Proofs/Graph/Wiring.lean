import CircuitGraph.Proofs.Lookup
import CircuitGraph.Graph.Validity
import Mathlib.Logic.Relation

/-
  The wiring of a graph as a relation.

  A place is a node with the number of a pin.
-/

---- Wires as a Relation ----

namespace CircuitGraph

open List

variable {n : Nat}

namespace Graph

variable {K : Type} {g : Graph K}

def Wired (g : Graph K) (src dst : Nat × Nat) : Prop :=
  ∃ w ∈ g.wires, w.src.place = src ∧ w.dst.place = dst

def Edge (g : Graph K) (u v : Nat) : Prop :=
  ∃ w ∈ g.wires, w.src.node = u ∧ w.dst.node = v

def Acyclic (g : Graph K) : Prop :=
  ∀ n, ¬ Relation.TransGen g.Edge n n

/- Whether no path leaves a set of nodes and comes back. -/
def Convex (g : Graph K) (S : Nat → Prop) : Prop :=
  ∀ u v w, S u → ¬ S v → S w → Relation.TransGen g.Edge u v → ¬ Relation.TransGen g.Edge v w

theorem Wired.edge {src dst : Nat × Nat} (hW : g.Wired src dst) : g.Edge src.1 dst.1 := by
  rcases hW with ⟨w, hM, rfl, rfl⟩
  exact ⟨w, hM, rfl, rfl⟩

theorem edge_iff_wired {u v : Nat} : g.Edge u v ↔ ∃ i j, g.Wired (u, i) (v, j) := by
  constructor
  · rintro ⟨w, hM, rfl, rfl⟩
    exact ⟨w.src.index, w.dst.index, w, hM, rfl, rfl⟩
  · rintro ⟨i, j, hW⟩
    exact hW.edge

@[simp] theorem mem_predecessors_iff {p : Nat} : p ∈ g.predecessors n ↔ g.Edge p n := by
  simp only [predecessors, mem_sortIds, mem_map, mem_filter, beq_iff_eq, Edge]
  constructor
  · rintro ⟨w, ⟨hM, hDst⟩, hSrc⟩
    exact ⟨w, hM, hSrc, hDst⟩
  · rintro ⟨w, hM, hSrc, hDst⟩
    exact ⟨w, ⟨hM, hDst⟩, hSrc⟩

@[simp] theorem mem_successors_iff {s : Nat} : s ∈ g.successors n ↔ g.Edge n s := by
  simp only [successors, mem_sortIds, mem_map, mem_filter, beq_iff_eq, Edge]
  constructor
  · rintro ⟨w, ⟨hM, hSrc⟩, hDst⟩
    exact ⟨w, hM, hSrc, hDst⟩
  · rintro ⟨w, hM, hSrc, hDst⟩
    exact ⟨w, ⟨hM, hSrc⟩, hDst⟩

theorem predecessors_nodup (g : Graph K) (n : Nat) : (g.predecessors n).Nodup :=
  sortIds_nodup _

theorem mem_wiresFrom_iff {i : Nat} {w : Wire} :
    w ∈ g.wiresFrom n i ↔ w ∈ g.wires ∧ w.src.place = (n, i) := by
  simp [wiresFrom, Pin.place, Prod.ext_iff]

theorem mem_targets_iff {i : Nat} {p : Pin} :
    p ∈ g.targets n i ↔ ∃ w ∈ g.wires, w.src.place = (n, i) ∧ w.dst = p := by
  simp only [targets, mem_mergeSort, mem_map, mem_wiresFrom_iff]
  constructor
  · rintro ⟨w, ⟨hM, hSrc⟩, hDst⟩
    exact ⟨w, hM, hSrc, hDst⟩
  · rintro ⟨w, hM, hSrc, hDst⟩
    exact ⟨w, ⟨hM, hSrc⟩, hDst⟩

theorem wired_iff_mem_targets {i : Nat} {dst : Nat × Nat} :
    g.Wired (n, i) dst ↔ ∃ p ∈ g.targets n i, p.place = dst := by
  constructor
  · rintro ⟨w, hM, hSrc, hDst⟩
    exact ⟨w.dst, mem_targets_iff.mpr ⟨w, hM, hSrc, rfl⟩, hDst⟩
  · rintro ⟨p, hM, hDst⟩
    rcases mem_targets_iff.mp hM with ⟨w, hWire, hSrc, rfl⟩
    exact ⟨w, hWire, hSrc, hDst⟩

---- Nodes by Id ----

theorem isOpId_iff : isOpId n = true ↔ 2 ≤ n := by
  rw [isOpId, decide_eq_true_iff]
  rfl

theorem mem_opIds_iff : n ∈ g.opIds ↔ ∃ node ∈ g.ops, node.id = n := by
  simp [opIds]

theorem mem_nodeIds_iff : n ∈ g.nodeIds ↔ n = inputId ∨ n = outputId ∨ n ∈ g.opIds := by
  simp [nodeIds]

theorem mem_opIds_of_mem {node : Node (Graph K)} (hN : node ∈ g.ops) : node.id ∈ g.opIds :=
  mem_opIds_iff.mpr ⟨node, hN, rfl⟩

theorem mem_nodeIds_of_op (hOp : n ∈ g.opIds) : n ∈ g.nodeIds :=
  mem_nodeIds_iff.mpr (.inr (.inr hOp))

theorem op?_eq_some {node : Node (Graph K)} (hN : g.op? n = some node) :
    node ∈ g.ops ∧ node.id = n :=
  ⟨mem_of_find?_eq_some hN, by simpa using find?_some hN⟩

theorem isSome_op?_iff : (g.op? n).isSome ↔ n ∈ g.opIds := by
  rw [op?, isSome_find?_key_iff, opIds, mem_sortIds]

theorem hasNode_iff : g.hasNode n = true ↔ n ∈ g.nodeIds := by
  have hBd : n ≤ outputId ↔ n = inputId ∨ n = outputId := by
    simp only [inputId, outputId]
    omega
  rw [hasNode, Bool.or_eq_true, isSome_op?_iff, mem_nodeIds_iff, decide_eq_true_iff, hBd, or_assoc]

theorem mem_nodeIds_of_signature (hSig : g.signatureOf n ≠ ⟨[], []⟩) : n ∈ g.nodeIds := by
  rw [mem_nodeIds_iff]
  by_contra hNone
  push Not at hNone
  rcases hNone with ⟨hInput, hOutp, hOp⟩
  apply hSig
  have hN : g.op? n = none := by
    rw [← Option.not_isSome_iff_eq_none, isSome_op?_iff]
    exact hOp
  simp [signatureOf, signatureOf?, hInput, hOutp, hN]

@[simp] theorem signatureOf_inputId (g : Graph K) : g.signatureOf inputId = ⟨[], g.inputs⟩ := by
  simp [signatureOf, signatureOf?]

@[simp] theorem signatureOf_outputId (g : Graph K) : g.signatureOf outputId = ⟨g.outputs, []⟩ := by
  simp [signatureOf, signatureOf?, inputId, outputId]

def outType? (g : Graph K) (place : Nat × Nat) : Option WireType :=
  (g.signatureOf place.1).outputs[place.2]?

def inType? (g : Graph K) (place : Nat × Nat) : Option WireType :=
  (g.signatureOf place.1).inputs[place.2]?

theorem mem_nodeIds_of_outType? {place : Nat × Nat} {t : WireType}
    (hType : g.outType? place = some t) : place.1 ∈ g.nodeIds := by
  refine mem_nodeIds_of_signature (fun hSig => ?_)
  simp [outType?, hSig] at hType

theorem mem_nodeIds_of_inType? {place : Nat × Nat} {t : WireType}
    (hType : g.inType? place = some t) : place.1 ∈ g.nodeIds := by
  refine mem_nodeIds_of_signature (fun hSig => ?_)
  simp [inType?, hSig] at hType

end Graph

end CircuitGraph
