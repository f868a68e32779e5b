import CircuitGraph.Optimize.Outcome
import CircuitGraph.Proofs.Graph.Measuring

/-
  Simulation of well-formed graphs.

  A well-formed graph can be simulated, unless it has an
  operation without a unitary or too many qubits: along its
  order every wire has an axis.
-/

---- Answers ----

namespace CircuitGraph

open List

variable {α β : Type}

def Answers (Q : α → Prop) (x : Except Fault α) : Prop :=
  (∀ a, x = .ok a → Q a) ∧ ∀ fault, x = .error fault → ∃ cause, fault = .argument cause

namespace Answers

variable {Q : α → Prop} {R : β → Prop} {x : Except Fault α} {f : α → Except Fault β}

theorem of_ok {a : α} (hRes : Q a) : Answers Q (.ok a) := by
  refine ⟨fun a' hOk => ?_, fun fault hError => nomatch hError⟩
  cases hOk
  exact hRes

theorem of_argument (cause : ArgumentFault) : Answers Q (.error (.argument cause)) := by
  refine ⟨fun a hOk => (nomatch hOk), fun fault hError => ?_⟩
  cases hError
  exact ⟨cause, rfl⟩

theorem bind (hFirst : Answers Q x) (hThen : ∀ a, Q a → Answers R (f a)) : Answers R (x >>= f) := by
  cases x with
  | ok a => exact hThen a (hFirst.1 a rfl)
  | error fault =>
    rcases hFirst.2 fault rfl with ⟨cause, rfl⟩
    exact of_argument cause

end Answers

---- Gates ----

variable {K R : Type} [Amplitudes R]

theorem answers_gateMatrix {kind : Kind} {params : List Float}
    (hParams : params.length = kind.arity) :
    Answers (fun _ => True) (gateMatrix (R := R) kind params) := by
  unfold gateMatrix
  split
  · exact .of_ok trivial
  · split
    · exact .of_argument _
    · next hArity =>
      match params, hParams with
      | [], hParams => exact absurd hParams.symm hArity
      | t :: _, _ =>
        dsimp only
        split
        · exact .of_argument _
        · split
          · exact .of_ok trivial
          · exact .of_argument _

theorem Kind.signature_balanced {kind : Kind} (hUnitary : kind.isUnitary = true) :
    (kind.signature?.getD ⟨[], []⟩).inputs.length = (kind.signature?.getD ⟨[], []⟩).outputs.length := by
  cases kind <;> first | rfl | exact absurd hUnitary (by decide)

---- Axes ----

namespace AxisMap

def Has (m : AxisMap) (place : Nat × Nat) : Prop :=
  ∃ entry ∈ m, entry.1 = place

variable {m : AxisMap} {place : Nat × Nat}

theorem Has.exists_find {p : Pin} (hHas : m.Has p.place) : ∃ axis, m.find p = .ok axis := by
  unfold find
  cases hFnd : List.find? (fun entry => entry.1 == p.place) m with
  | some entry => exact ⟨entry.2, rfl⟩
  | none =>
    rcases hHas with ⟨entry, hM, hPlace⟩
    exact absurd (beq_iff_eq.mpr hPlace) (by simpa using find?_eq_none.mp hFnd entry hM)

theorem Has.record (hHas : m.Has place) (n : Nat) (axes : List Nat) :
    (m.record n axes).Has place := by
  rcases hHas with ⟨entry, hM, hPlace⟩
  exact ⟨entry, mem_append_right _ hM, hPlace⟩

theorem has_record_self (m : AxisMap) (n : Nat) {axes : List Nat} {i : Nat}
    (hIndex : i < axes.length) : (m.record n axes).Has (n, i) := by
  refine ⟨((n, i), axes[i]), mem_append_left _ (mem_map.mpr ⟨(axes[i], i), ?_, rfl⟩), rfl⟩
  exact mem_zipIdx_iff_getElem?.mpr (getElem?_eq_getElem hIndex)

end AxisMap

---- Evolution ----

variable {R : Type}

def Signature.Answers (sig : Signature) (evolution : Evolution R) : Prop :=
  ∀ u axes, axes.length = sig.inputs.length →
    CircuitGraph.Answers (fun out => out.2.length = sig.outputs.length) (evolution u axes)

namespace Graph

variable {g : Graph K}

def Tracked (g : Graph K) (done : List Nat) (m : AxisMap) : Prop :=
  ∀ n, n = inputId ∨ n ∈ done → ∀ i < (g.signatureOf n).outputs.length, m.Has (n, i)

section

variable {m : AxisMap} {done : List Nat} (hS : g.Sound) (hCom : g.Complete)
  (hTracked : g.Tracked done m)

include hS hCom hTracked

theorem Sound.exists_axisInto {n i : Nat} (hBef : ∀ p, g.Edge p n → p = inputId ∨ p ∈ done)
    (hIndex : i < (g.signatureOf n).inputs.length) : ∃ axis, g.axisInto m n i = .ok axis := by
  rcases hCom.fed (n, i) _ (getElem?_eq_getElem hIndex) with ⟨src, hW⟩
  rcases hS.wired_iff_source?.mp hW with ⟨p, hSource, hPlace⟩
  rcases hW with ⟨w, hM, hSrc, hDst⟩
  have hEdge : g.Edge p.node n := by
    refine ⟨w, hM, ?_, congrArg Prod.fst hDst⟩
    exact congrArg Prod.fst (hSrc.trans hPlace.symm)
  rcases hS.typed w hM with ⟨t, hOut, -⟩
  rw [hSrc, ← hPlace] at hOut
  have hHas : m.Has p.place :=
    hTracked p.node (hBef p.node hEdge) p.index (lt_of_getElem? hOut)
  simp only [axisInto, hSource]
  exact hHas.exists_find

theorem Sound.exists_axesInto {n : Nat} (hBef : ∀ p, g.Edge p n → p = inputId ∨ p ∈ done) :
    ∃ axes, (List.range (g.signatureOf n).inputs.length).mapM (g.axisInto m n) = .ok axes ∧
      axes.length = (g.signatureOf n).inputs.length := by
  have hEach : ∀ i ∈ List.range (g.signatureOf n).inputs.length,
      ∃ axis, g.axisInto m n i = .ok axis := fun i hM =>
    hS.exists_axisInto hCom hTracked hBef (mem_range.mp hM)
  rcases exists_mapM_eq_ok hEach with ⟨axes, hAxes⟩
  exact ⟨axes, hAxes, by rw [length_of_mapM hAxes, length_range]⟩

end

variable [Amplitudes R]

/- An operation of a well-formed graph has an axis for each of its outputs. -/
theorem answers_evolveNode {node : Node (Graph K)} (hS : node.Sound)
    (hOwned : node.enclosing = none) {body : Option (Evolution R)}
    (hB : ∀ b, node.body = some b → ∃ evolution, body = some evolution ∧
      b.signature.Answers evolution)
    (qubits : Nat) : node.signature.Answers (evolveNode qubits node body) := by
  intro u axes hAxes
  unfold evolveNode
  split
  · next kind evolution hKind =>
    rcases hS.exists_body hOwned (by rw [hKind]; rfl) with ⟨b, hSome, hBd⟩
    rcases hB b hSome with ⟨evolution', hSame, hAnswers⟩
    cases hSame
    have hSig : node.signature = b.signature := by
      simp [Node.signature, hKind, hBd]
    rw [hSig] at hAxes ⊢
    exact hAnswers u axes hAxes
  · split
    · next hUnitary =>
      have hGate : node.kind.isContainer = false := by
        cases hKind : node.kind <;> first | rfl | (rw [hKind] at hUnitary; exact absurd hUnitary (by decide))
      have hParams : (Param.values node.params).length = node.kind.arity := by
        rw [Param.values, length_map, hS.params]
      refine (answers_gateMatrix hParams).bind (fun gate _ => .of_ok ?_)
      rw [hAxes, Node.signature_gate hGate]
      exact Kind.signature_balanced hUnitary
    · exact .of_argument _

/- One turn of the evolution: an operation whose predecessors are done becomes done. -/
theorem Sound.answers_evolveTurn (hS : g.Sound) (hF : g.WellFormed)
    {bodies : List (Nat × Evolution R)}
    (hBodies : ∀ node ∈ g.ops, ∀ body, node.body = some body →
      ∃ evolution, valueOf? bodies node.id = some evolution ∧ body.signature.Answers evolution)
    (qubits : Nat)
    {m : AxisMap}
    {done : List Nat}
    (hTracked : g.Tracked done m)
    (u : Grid R)
    {node : Node (Graph K)}
    (hN : node ∈ g.ops)
    (hBef : ∀ p, g.Edge p node.id → p = inputId ∨ p ∈ done) :
    Answers (fun out => g.Tracked (done ++ [node.id]) out.1) (do
      let axes ← (List.range node.signature.inputs.length).mapM (g.axisInto m node.id)
      let (u, outs) ← evolveNode qubits node (valueOf? bodies node.id) u axes
      return (AxisMap.record m node.id outs, u)) := by
  rcases hS.exists_axesInto hF.complete hTracked hBef with ⟨axes, hAxes, hLen⟩
  rw [hS.signatureOf_id hN] at hAxes hLen
  rw [hAxes]
  refine (answers_evolveNode (hS.nodes node hN) (hF.owned hN)
    (hBodies node hN) qubits u axes hLen).bind ?_
  rintro ⟨u', outs⟩ hOuts
  refine .of_ok (fun n hM i hIndex => ?_)
  by_cases hSame : n = node.id
  · subst hSame
    rw [hS.signatureOf_id hN, ← hOuts] at hIndex
    exact AxisMap.has_record_self m _ hIndex
  · refine (hTracked n (hM.imp_right fun hM => ?_) i hIndex).record _ _
    simpa [hSame] using hM

section

variable {bodies : List (Nat × Evolution R)} (hS : g.Sound) (hF : g.WellFormed)
  (hBodies : ∀ node ∈ g.ops, ∀ body, node.body = some body →
    ∃ evolution, valueOf? bodies node.id = some evolution ∧ body.signature.Answers evolution)

include hS hF hBodies

theorem Sound.answers_evolveOrder (qubits : Nat) {order : List Nat}
    (hOrder : g.operationOrder = .ok order) {done rest : List Nat} (hSplit : order = done ++ rest)
    {m : AxisMap} (hTracked : g.Tracked done m) (u : Grid R) :
    Answers (fun out => g.Tracked order out.1) (rest.foldlM (fun (m, u) n =>
      match g.op? n with
      | none => pure (m, u)
      | some node => do
        let axes ← (List.range node.signature.inputs.length).mapM (g.axisInto m n)
        let (u, outs) ← evolveNode qubits node (valueOf? bodies n) u axes
        return (AxisMap.record m n outs, u)) (m, u)) := by
  rcases hS.operationOrder_ok hOrder with ⟨hPerm, hOrd⟩
  induction rest generalizing done m u with
  | nil =>
    rw [append_nil] at hSplit
    exact .of_ok (hSplit ▸ hTracked)
  | cons n rest ih =>
    have hM : n ∈ g.opIds := hPerm.mem_iff.mp (by simp [hSplit])
    rcases mem_opIds_iff.mp hM with ⟨node, hN, rfl⟩
    have hBef : ∀ p, g.Edge p node.id → p = inputId ∨ p ∈ done := fun p hEdge =>
      (hS.edge_source hEdge).imp_right (fun hOp =>
        hOrd done node.id rest hSplit p ⟨hEdge, hOp⟩)
    have hTurn := hS.answers_evolveTurn hF hBodies qubits hTracked u hN hBef
    rw [foldlM_cons]
    refine Answers.bind (Q := fun out => g.Tracked (done ++ [node.id]) out.1) ?_
      (fun out hOut => ih (by simp [hSplit]) hOut out.2)
    simp only [hS.op?_id hN]
    exact hTurn

theorem Sound.answers_evolveLevel (qubits : Nat) :
    g.signature.Answers (evolveLevel qubits g bodies) := by
  intro u inputs hInputs
  rcases hS.exists_operationOrder hF.acyclic with ⟨order, hOrder⟩
  have hStart : g.Tracked [] (AxisMap.record [] inputId inputs) := by
    rintro n (rfl | hM) i hIndex
    · exact AxisMap.has_record_self _ _ (hInputs ▸ hIndex)
    · exact absurd hM not_mem_nil
  unfold evolveLevel
  rw [hOrder]
  refine (hS.answers_evolveOrder hF hBodies qubits hOrder (nil_append _).symm hStart u).bind ?_
  rintro ⟨m, u'⟩ hTracked
  have hBef : ∀ p, g.Edge p outputId → p = inputId ∨ p ∈ order := fun p hEdge =>
    (hS.edge_source hEdge).imp_right (hS.operationOrder_ok hOrder).1.mem_iff.mpr
  rcases hS.exists_axesInto hF.complete hTracked hBef with ⟨outs, hOuts, hLen⟩
  have hSig : (g.signatureOf outputId).inputs = g.outputs := rfl
  rw [hSig] at hOuts hLen
  simp only [hOuts]
  exact .of_ok hLen

end

theorem Intact.answers_evolve (hI : g.Intact) (hF : g.WellFormed) (qubits : Nat) :
    g.signature.Answers (g.evolve qubits : Evolution R) :=
  hI.foldWith_induction (motive := fun g evolution => g.signature.Answers evolution)
    (fun _ _ hS hF hBodies _ => hS.answers_evolveLevel hF hBodies qubits) hF

theorem Intact.answers_unitary (hI : g.Intact) (hF : g.WellFormed) :
    Answers (fun _ => True) (g.unitary : Except Fault (Grid R)) := by
  unfold unitary
  dsimp only
  split
  · exact .of_argument _
  · split
    · exact .of_argument _
    · refine (hI.answers_evolve hF _ _ _ length_range).bind (fun out _ => ?_)
      exact .of_ok trivial

end Graph

---- Comparison ----

theorem answers_unitariesEqual (u v : Grid Amplitude) :
    Answers (fun _ => True) (unitariesEqual u v standardTolerance) := by
  unfold unitariesEqual
  split
  · exact .of_ok trivial
  · dsimp only
    split
    · exact .of_ok trivial
    · exact .of_argument _

section

variable {g g' : Graph K} (hL : g.Intact) (hLeftFormed : g.WellFormed) (hR : g'.Intact)
  (hRightFormed : g'.WellFormed)

include hL hLeftFormed hR hRightFormed

theorem Graph.Intact.answers_isEquivalent :
    Answers (fun _ => True) (g.isEquivalent g' standardTolerance) := by
  unfold isEquivalent
  split
  · exact .of_ok trivial
  · refine (hL.answers_unitary hLeftFormed).bind (fun u _ => ?_)
    exact (hR.answers_unitary hRightFormed).bind (fun v _ => answers_unitariesEqual u v)

theorem exists_verifyResult (wanted : Bool) : ∃ answer, verifyResult wanted g g' = .ok answer := by
  unfold verifyResult
  split
  · cases hAnswer : g.isEquivalent g' standardTolerance with
    | ok equal => cases equal <;> exact ⟨_, rfl⟩
    | error fault =>
      rcases (hL.answers_isEquivalent hLeftFormed hR hRightFormed).2 fault hAnswer with
        ⟨cause, rfl⟩
      exact ⟨_, rfl⟩
  · exact ⟨_, rfl⟩

end

end CircuitGraph
