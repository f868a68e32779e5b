import CircuitGraph.Proofs.Graph.Index
import CircuitGraph.Proofs.History.Calls

/-
  The invariant of graphs that are edited.

  Wires are looked up by the place that they enter and by the
  place that they leave, in two tables.

  Main declarations:
    * Graph.Invariant: what holds between two calls, and
    * calls_keep_invariant: it holds after every history.
-/

---- The Invariant ----

namespace CircuitGraph

open List

namespace Graph

variable {K : Type}

/-
  What holds of a graph between two calls:
    * `boundary`: the boundary nodes are there, and no
      operation has one of their ids or kinds,
    * `below`, `unique`: ids tell nodes apart and were all
      given out,
    * `keys`: no place has two entries in a table,
    * `same`, `once`, `complete`: the two tables hold the same
      wires, each once, and they are all,
    * `keyedByInput`, `keyedByOutput`, `filled`: what a table
      has for a place belongs there, and there is no entry
      for a place without wires,
    * `lookUps`: the tables tell what is found by going
      through all of the wires,
    * `joins`: a wire runs from an output pin to an input pin
      of the same type, and both exist,
    * `single`, `linear`: no input pin and no output pin that
      cannot be copied has two wires.
-/
structure Invariant (g : Graph K) : Prop where
  boundary : g.kindOf? inputId = some .input ∧ g.kindOf? outputId = some .output ∧
    ∀ node ∈ g.ops, node.id ≠ inputId ∧ node.id ≠ outputId ∧ node.kind.isBoundary = false
  below : ∀ n ∈ g.nodeIds, n < g.nextId
  unique : (g.ops.map Node.id).Nodup
  keys : (g.index.into.map Prod.fst).Nodup ∧ (g.index.outOf.map Prod.fst).Nodup
  same : (g.index.into.map Prod.snd).Perm (g.index.outOf.flatMap Prod.snd)
  once : (g.index.into.map Prod.snd).Nodup
  complete : ∀ w, w ∈ g.index.into.map Prod.snd ↔ w ∈ g.wires
  keyedByInput : ∀ entry ∈ g.index.into, entry.2.dst.place = entry.1
  keyedByOutput : ∀ entry ∈ g.index.outOf, ∀ w ∈ entry.2, w.src.place = entry.1
  filled : ∀ entry ∈ g.index.outOf, entry.2 ≠ []
  lookUps : ∀ n i, g.index.into.lookup (n, i) = g.wireInto? n i ∧
    g.index.leaving (n, i) = g.wiresFrom n i
  joins : ∀ w ∈ g.wires, w.src.node ∈ g.nodeIds ∧ w.dst.node ∈ g.nodeIds ∧
    ∃ t, (g.pinTypes w.src.node .output)[w.src.index]? = some t ∧
      (g.pinTypes w.dst.node .input)[w.dst.index]? = some t
  single : ∀ n i, (g.wires.filter (fun w => w.dst.place == (n, i))).length ≤ 1
  linear : ∀ n i t, (g.pinTypes n .output)[i]? = some t → t.copyable = false →
    (g.wiresFrom n i).length ≤ 1

end Graph

---- Sound Graphs ----

namespace Graph

namespace Sound

variable {K : Type} {g : Graph K}

theorem invariant (hS : g.Sound) (hIndex : g.Indexed) : g.Invariant where
  boundary := by
    refine ⟨rfl, rfl, fun node hN => ?_⟩
    exact ⟨(hS.id_ne hN).1, (hS.id_ne hN).2, (hS.nodes node hN).inner⟩
  below n hN := by
    have hStarted := hS.started
    rcases mem_nodeIds_iff.mp hN with rfl | rfl | hOp
    · exact Nat.lt_of_le_of_lt (Nat.zero_le _) hStarted
    · exact hStarted
    · rcases mem_opIds_iff.mp hOp with ⟨node, hM, rfl⟩
      exact hS.issued node hM
  unique := hS.unique
  keys := ⟨hIndex.intoKeys, hIndex.outKeys⟩
  same := (hIndex.perm_into hS.single).trans hIndex.perm_outOf.symm
  once := (hIndex.perm_into hS.single).nodup_iff.mpr hS.wires_nodup
  complete _ := (hIndex.perm_into hS.single).mem_iff
  keyedByInput _ hEntry := ((hIndex.mem_into_iff hS.single).mp hEntry).2
  keyedByOutput _ hEntry w hM := by
    rw [(hIndex.src_place hEntry).1] at hM
    exact beq_iff_eq.mp (mem_filter.mp hM).2
  filled _ hEntry := (hIndex.src_place hEntry).2
  lookUps n i := ⟨hIndex.into (n, i), hIndex.leaving (n, i)⟩
  joins w hM := by
    rcases hS.typed w hM with ⟨t, hOut, hIn⟩
    exact ⟨mem_nodeIds_of_outType? hOut, mem_nodeIds_of_inType? hIn, t, hOut, hIn⟩
  single n i := by
    refine length_le_one_of_nodup (hS.wires_nodup.filter _) (fun v hV w hW => ?_)
    simp only [mem_filter, beq_iff_eq] at hV hW
    exact hS.wire_eq_of_dst hV.1 hW.1 (hV.2.trans hW.2.symm)
  linear n i t hType hLin := by
    refine length_le_one_of_nodup (hS.wires_nodup.filter _) (fun v hV w hW => ?_)
    rcases mem_wiresFrom_iff.mp hV with ⟨hL, hFrom⟩
    rcases mem_wiresFrom_iff.mp hW with ⟨hR, hFrom'⟩
    refine hS.linear v hL w hR (hFrom.trans hFrom'.symm) (fun hBool => ?_)
    rw [hFrom] at hBool
    obtain rfl := eq_of_some hType hBool
    cases hLin

end Sound

end Graph

---- Histories ----

variable {K : Type} [Scalar K]

namespace Graph

variable {g : Graph K}

theorem signature_of_changes {P : Graph K → Prop} {g' : Graph K}
    (hChanges : Relation.ReflTransGen (Change P) g g') : g'.signature = g.signature := by
  induction hChanges with
  | refl => rfl
  | @tail a b _ hChange ih =>
    rw [← ih]
    cases hChange with
    | insertWire => exact (alike_insertWire a _).signature
    | rerank => exact (unchanged_topologicalRanks a).1.signature
    | _ => rfl

theorem Sound.indexed_after (hS : g.Sound) (hIndex : g.Indexed) (calls : List (GraphCall K)) :
    (g.after calls).Indexed := by
  induction calls generalizing g with
  | nil => exact hIndex
  | cons c calls ih =>
    refine ih (hS.call c).1 ?_
    by_cases hCopy : c = .copy
    · subst hCopy
      exact hS.indexed_copy hIndex
    · have hChanges := (GraphCall.keeps_changed hCopy g hS.changed).changes
      exact (hS.indexed_of_changes hIndex hChanges).2

theorem Sound.signature_after (hS : g.Sound) (calls : List (GraphCall K)) :
    (g.after calls).signature = g.signature := by
  induction calls generalizing g with
  | nil => rfl
  | cons c calls ih =>
    refine (ih (hS.call c).1).trans ?_
    by_cases hCopy : c = .copy
    · subst hCopy
      exact signature_copy g
    · exact signature_of_changes (GraphCall.keeps_changed hCopy g hS.changed).changes

end Graph

/-
  Whatever is called on an empty graph, and whether or not the
  calls succeed: the invariant holds after them and the
  boundary is the one it was, the id counter has never gone
  back, and no id was given out twice.
-/
theorem calls_keep_invariant
    (inputs outputs : List WireType)
    (calls : List (GraphCall K)) :
    ((Graph.empty inputs outputs).after calls).Invariant ∧
      ((Graph.empty inputs outputs).after calls).signature = ⟨inputs, outputs⟩ ∧
      (∀ earlier later, calls = earlier ++ later →
        ((Graph.empty inputs outputs).after earlier).nextId ≤
          ((Graph.empty inputs outputs).after calls).nextId) ∧
      ((Graph.empty inputs outputs).issuedBy calls).Pairwise (· < ·) := by
  have hEmpty : (Graph.empty inputs outputs : Graph K).Sound := Graph.sound_empty inputs outputs
  have hIndex := hEmpty.indexed_after WireIndex.lists_empty calls
  refine ⟨(hEmpty.after calls).1.invariant hIndex, hEmpty.signature_after calls, ?_,
    (hEmpty.issuedBy calls).2⟩
  rintro earlier later rfl
  rw [Graph.after_append]
  exact ((hEmpty.after earlier).1.after later).2

end CircuitGraph
