import CircuitGraph.Proofs.Circuit.Construction
import CircuitGraph.Proofs.Circuits

/-
  Circuits that come back from their graphs.

  The graph of a circuit is valid, and its operations come out
  in the order in which they were laid out.

  Main declarations:
    * `Emits`: graphs that give operations back
    * `recovered`
-/

---- Closed Layouts ----

namespace CircuitGraph

open List

variable {n : Nat}

namespace Graph

variable {K : Type} {g : Graph K}

theorem swapsBack_of_fixed {js lines : List Nat} (hFixed : ∀ j ∈ js, lines[j]? = some j) :
    swapsBack js lines = ([], lines) := by
  induction js with
  | nil => rfl
  | cons j js ih =>
    rw [swapsBack, hFixed j mem_cons_self]
    simp only [if_true]
    exact ih (fun i hM => hFixed i (mem_cons_of_mem _ hM))

theorem circuitShaped_lineTypes {m : Nat} (hInputs : g.inputs = lineTypes n m)
    (hOuts : g.outputs = lineTypes n m) :
    g.inputs.count .qubit = n ∧ g.circuitShaped = true := by
  have hCount : g.inputs.count .qubit = n := by
    simp [hInputs, lineTypes, count_replicate]
  refine ⟨hCount, ?_⟩
  rw [circuitShaped, hCount, hInputs, hOuts]
  simp [lineTypes, mem_replicate]

/- What a graph with lines at its boundary is that emits operations without moving its lines. -/
structure Emits (n m : Nat) (ops : List Operation) (g : Graph K) : Prop where
  inputs : g.inputs = lineTypes n m
  outputs : g.outputs = lineTypes n m
  lines : g.linearize n ((List.range (n + m)).map Line.plain) none =
    .ok (ops.map Operation.plain, (List.range (n + m)).map Line.plain)

theorem Emits.toCircuit {m : Nat} {ops : List Operation} (hEmits : g.Emits n m ops) :
    g.toCircuit = .ok ⟨.whole n, .whole m, ops.map Operation.plain⟩ := by
  rcases circuitShaped_lineTypes hEmits.inputs hEmits.outputs with ⟨hQubits, hShaped⟩
  have hBits : g.inputs.length - n = m := by
    rw [hEmits.inputs, length_lineTypes, Nat.add_sub_cancel_left]
  have hBack : swapsBack (List.range n)
      (((List.range (n + m)).map Line.plain).map Line.number) = ([], List.range (n + m)) := by
    have hNumbers : ((List.range (n + m)).map Line.plain).map Line.number = List.range (n + m) := by
      rw [map_map]
      exact map_id _
    rw [hNumbers]
    refine swapsBack_of_fixed (fun j hM => ?_)
    rw [mem_range] at hM
    exact getElem?_range (Nat.lt_add_right m hM)
  unfold Graph.toCircuit
  simp only [hQubits, hBits, hShaped, Bool.not_true, Bool.false_eq_true, if_false]
  refine bind_eq_ok_iff.mpr ⟨_, hEmits.lines, ?_⟩
  simp only [hBack, append_nil]
  exact if_neg (not_not.mpr rfl)

---- Graphs of Circuits ----

variable [Scalar K]

theorem lineCount_eq {size : Value} (hSize : size.position? = some (n : Int))
    (hLimit : (n : Int) < layoutLimit) : lineCount size = .ok (n : Int) := by
  have hCount :
      ¬ ((decide (countLimit ≤ (n : Int)) || decide ((n : Int) < -countLimit)) = true) := by
    simp only [Bool.or_eq_true, decide_eq_true_eq, not_or, not_le, not_lt]
    simp only [layoutLimit] at hLimit
    simp only [countLimit]
    omega
  have hFew : ¬ layoutLimit ≤ (n : Int) := not_le.mpr hLimit
  unfold lineCount
  refine bind_eq_ok_iff.mpr ⟨n, by simp [Value.position, hSize], ?_⟩
  rw [if_neg hCount, if_neg hFew]
  rfl

theorem laidOut_empty (n m : Nat) :
    LaidOut n m ((List.range (lineTypes n m).length).map (Pin.of inputId))
      (.empty (lineTypes n m) (lineTypes n m) : Graph K) [] where
  frontier := frontier_empty _
  replays := by
    have hEmpty := replays_empty (K := K) n none
      ((List.range (n + m)).map Line.plain) (lineTypes n m) (by simp [length_lineTypes])
    exact hEmpty
  kinds _ node hM := absurd hM not_mem_nil

theorem forM_zipIdx_eq (front : List Pin) :
    front.zipIdx.forM (fun (p, i) => join (K := K) p (.of outputId i)) =
      (entering outputId 0 front).forM (fun w => join w.src w.dst) := by
  simp [entering, forM_map]

/- A circuit whose operations fit its sizes becomes a valid graph that stands for it. -/
theorem exists_ofCircuit {m : Nat} {c : Circuit} (hQubits : c.qubits.position? = some (n : Int))
    (hBits : c.bits.position? = some (m : Int)) (hManyQubits : (n : Int) < layoutLimit)
    (hManyBits : (m : Int) < layoutLimit) (hFits : ∀ op ∈ c.ops, op.Fits n m) :
    ∃ g : Graph K, ofCircuit c = .ok g ∧ g.WellFormed ∧ g.Emits n m c.ops ∧
      (m = 0 → ∀ node ∈ g.ops, ∃ op ∈ c.ops, node.kind = op.kind) := by
  rcases (laidOut_empty (K := K) n m).addAll hFits (.refl _) with
    ⟨front, g, g₁, hY, hA, hLaid⟩
  have hClose : (g.close front).Alike { g₁ with wires := g₁.wires ++ entering outputId 0 front } :=
    .of_parts hA.inputs hA.outputs hA.ops (congrArg (· ++ _) hA.wires) hA.nextId
  rcases yields_joinAll (hLaid.frontier.sound_close.of_alike hClose) with ⟨G, hJoined, hAfter⟩
  have hSame := hClose.trans hAfter
  have hOuts := hSame.outputs.trans hLaid.frontier.outputs
  refine ⟨G, ?_, hLaid.frontier.wellFormed_close.of_alike hSame,
    ⟨hSame.inputs.trans hLaid.frontier.inputs, hOuts, ?_⟩, fun hNone node hM => ?_⟩
  · unfold ofCircuit
    refine bind_eq_ok_iff.mpr ⟨n, lineCount_eq hQubits hManyQubits, ?_⟩
    refine bind_eq_ok_iff.mpr ⟨m, lineCount_eq hBits hManyBits, ?_⟩
    refine Edit.build_eq_ok_iff.mpr (.bind hY ?_)
    rw [forM_zipIdx_eq]
    exact hJoined
  · exact hLaid.replays.linearize hLaid.frontier (by simp [length_lineTypes])
      (hLaid.frontier.sound_close.of_alike hSame) hSame.ops (fun w => by rw [hSame.wires]) hOuts
  · rw [hSame.ops] at hM
    exact hLaid.kinds hNone node hM

end Graph

---- Built Circuits ----

variable {K : Type} [Scalar K]

/-
  A circuit that was built by its methods becomes a valid
  graph, and the circuit of this graph has the same sizes and
  the same operations in the same order.  Its indices are the
  same numbers, written plainly.  The sizes must leave room to
  lay out the lines.
-/
theorem Circuit.recovered
    {qubits bits : Value}
    {n m : Nat}
    (hQubits : qubits.position? = some (n : Int))
    (hBits : bits.position? = some (m : Int))
    (hManyQubits : (n : Int) < Graph.layoutLimit)
    (hManyBits : (m : Int) < Graph.layoutLimit)
    {calls : List Call}
    (hMethods : Call.areMethods calls = true)
    {c : Circuit}
    (hBuild : Circuit.build qubits bits calls = .ok c) :
    ∃ g : Graph K, Graph.ofCircuit c = .ok g ∧ g.validate = .ok () ∧
      g.toCircuit = .ok ⟨.whole n, .whole m, c.ops.map Operation.plain⟩ := by
  rcases Circuit.fits_of_build hQubits hBits hMethods hBuild with ⟨hSize, hSize', hFits⟩
  rcases Graph.exists_ofCircuit (K := K) hSize hSize' hManyQubits hManyBits hFits with
    ⟨g, hGraph, hFormed, hEmits, -⟩
  exact ⟨g, hGraph, (Graph.reachable_of_ofCircuit hGraph).intact.validate_ok_iff.mpr hFormed,
    hEmits.toCircuit⟩

/-
  Calls that measure a qubit into the bit that the measurement
  is conditioned on, between operations that wait for nothing.
-/
def conditionedCalls : List Call :=
  [.add .h [.whole 0] [], .measure (.whole 0) .null,
    .block (.whole 0) [.add .cx [.whole 1, .whole 0] [], .measure (.whole 1) (.whole 0)],
    .add .reset [.whole 0] []]

def conditionedCircuit : Circuit :=
  ⟨.whole 2, .whole 1,
    [⟨.h, [.number 0], [], none, none⟩,
      ⟨.measure, [.number 0], [], some (.number 0), none⟩,
      ⟨.cx, [.number 1, .number 0], [], none, some (.number 0)⟩,
      ⟨.measure, [.number 1], [], some (.number 0), some (.number 0)⟩,
      ⟨.reset, [.number 0], [], none, none⟩]⟩

theorem build_conditionedCalls :
    Circuit.build (.whole 2) (.whole 1) conditionedCalls = .ok conditionedCircuit :=
  rfl

theorem Circuit.recovered_conditioned :
    Circuit.build (.whole 2) (.whole 1) conditionedCalls = .ok conditionedCircuit ∧
      ∃ g : Graph ℚ, Graph.ofCircuit conditionedCircuit = .ok g ∧ g.validate = .ok () ∧
        g.toCircuit = .ok conditionedCircuit :=
  ⟨build_conditionedCalls, Circuit.recovered (n := 2) (m := 1) rfl rfl (by decide) (by decide)
    (by decide) build_conditionedCalls⟩

end CircuitGraph
