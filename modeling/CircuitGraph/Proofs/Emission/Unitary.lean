import CircuitGraph.Proofs.Emission.Behaviour

/-
  Circuits of graphs of unitary gates.

  A graph of unitary gates and regions, with qubits at its
  boundary, has a circuit, however its outputs are permuted.

  Main declarations:
    * `performAll`: what gates do to a state
    * `performAll_toCircuit`
-/

---- Execution on Any Values ----

namespace CircuitGraph

open List

variable {V : Type} {I : Interpretation V} {qubits n : Nat}

namespace Operation

/- What is on the lines after an operation; one under a condition is left out. -/
def perform (I : Interpretation V) (qubits : Nat) (op : Operation) (s : Nat → V) : Nat → V :=
  match op.condition with
  | none =>
    put s (op.lines qubits) (I.gate op.kind (Param.values op.params) ((op.lines qubits).map s))
  | some _ => s

def performAll (I : Interpretation V) (qubits : Nat) (ops : List Operation) (s : Nat → V) :
    Nat → V :=
  ops.foldl (fun s op => op.perform I qubits s) s

theorem performAll_untouched {ops : List Operation} (hNot : ∀ op ∈ ops, n ∉ op.lines qubits)
    (s : Nat → V) : performAll I qubits ops s n = s n := by
  induction ops generalizing s with
  | nil => rfl
  | cons op ops ih =>
    rw [performAll, foldl_cons]
    refine (ih (fun other hOther => hNot other (mem_cons_of_mem op hOther)) _).trans ?_
    unfold perform
    cases op.condition with
    | none => exact put_of_not_mem (hNot op mem_cons_self) s _
    | some _ => rfl

end Operation

def Execution.free (I : Interpretation V) (qubits : Nat) : Execution V qubits where
  run := Operation.performAll I qubits
  nil _ := rfl
  append _ _ _ := foldl_append
  untouched := Operation.performAll_untouched

theorem Execution.free_swaps (hSwap : ∀ a b, I.gate .swap [] [a, b] = [b, a]) :
    (Execution.free I qubits).Swaps := by
  intro j a s
  have hRun : (Execution.free I qubits).run [⟨.swap, [.number j, .number a], [], none, none⟩] s =
      put s [j, a] (I.gate .swap [] [s j, s a]) := rfl
  rw [hRun, hSwap]
  rfl

---- Lines of Qubits ----

theorem LineMap.mem_or_find {m : LineMap} {lines : List Line} {src : Nat × Nat} {l : Line}
    (hFnd : (m.record n lines).find src = .ok l) : l ∈ lines ∨ m.find src = .ok l := by
  rw [find, record_eq, find?_append] at hFnd
  cases hNew : (lines.zipIdx.map (fun entry => ((n, entry.2), entry.1))).find?
      (fun entry => entry.1 == src) with
  | none =>
    rw [hNew, Option.none_or, ← find] at hFnd
    exact .inr hFnd
  | some entry =>
    rw [hNew] at hFnd
    cases hFnd
    rcases mem_map.mp (mem_of_find?_eq_some hNew) with ⟨pair, hPair, rfl⟩
    exact .inl (mem_of_getElem? (mem_zipIdx_iff_getElem?.mp hPair))

namespace Graph

variable {K : Type} {g : Graph K} {lines : List Line} {m : LineMap}

def UnitaryLevel (g : Graph K) : Prop :=
  ∀ node ∈ g.ops, node.kind.isUnitary = true ∨ node.kind = .region

def OnQubits (qubits : Nat) (m : LineMap) : Prop :=
  ∀ src l, m.find src = .ok l → Line.Fits qubits .qubit l

theorem OnQubits.record (hQubits : OnQubits qubits m)
    (hLines : ∀ l ∈ lines, Line.Fits qubits .qubit l) : OnQubits qubits (m.record n lines) := by
  intro src l hFnd
  rcases LineMap.mem_or_find hFnd with hM | hOld
  · exact hLines l hM
  · exact hQubits src l hOld

theorem OnQubits.into (hQubits : OnQubits qubits m) (hS : g.Sound) {k : Nat} {into : List Line}
    (hInto : (List.range k).mapM (g.lineInto m n) = .ok into) {l : Line} (hM : l ∈ into) :
    Line.Fits qubits .qubit l := by
  rcases mem_iff_getElem?.mp hM with ⟨i, hLine⟩
  rcases (hS.wired_of_into hInto).2 i l hLine with ⟨src, -, hFnd⟩
  exact hQubits src l hFnd

theorem OnQubits.sparesControls (hQubits : OnQubits qubits m) {rest : List Nat}
    {ops : List Operation} : g.sparesControls qubits m rest ops = true :=
  sparesControls_iff.mpr (fun src _ _ _ _ hFnd => (hQubits src _ hFnd).elim)

theorem computes_gate (hFree : ∀ t v, I.carries t v) {node : Node (Graph K)} (hS : node.Sound)
    (hUnitary : node.kind.isUnitary = true) {into : List Line} {body : Option Emission}
    (hCarr : Carried qubits node.signature.inputs into) :
    ∃ op, emitNode qubits node body none into = .ok ([op], into) ∧
      Computes (.free I qubits) into (node.meaning I (node.body.map (Graph.meaning I)))
        node.signature.outputs [op] into := by
  have hCont : node.kind.isContainer = false := by
    revert hUnitary
    cases node.kind <;> simp [Kind.isUnitary, Kind.isContainer, Kind.isGate]
  have hGate : node.kind.isGate = true := by
    revert hUnitary
    cases node.kind <;> simp [Kind.isUnitary, Kind.isGate]
  rcases Kind.isGate_signature hGate with ⟨types, hTypes, hLin⟩
  refine ⟨⟨node.kind, into.map Line.index, node.params, none, none⟩, ?_, ?_⟩
  · unfold emitNode
    split <;> first
      | rfl
      | (rename_i hKind
         rw [hKind] at hUnitary
         cases hUnitary)
  · rw [Node.meaning_gate hCont]
    rw [Node.signature_gate hCont, hTypes] at hCarr ⊢
    refine .single hCarr hLin ?_ (fun s => rfl) (fun xs hLen => ?_)
    · rw [Operation.lines, Line.filterMap_index]
      exact append_nil _
    · have hParams : (Param.values node.params).length = node.kind.arity := by
        rw [Param.values, length_map, hS.params]
      exact (I.gate_typed _ _ _ xs hTypes hParams
        (forall₂_iff_get.mpr ⟨hLen.symm, fun _ _ _ => hFree _ _⟩)).length_eq.symm

/- A graph of unitary gates and regions is emitted on qubits, and computes what it means. -/
theorem Intact.linearize_unitary (hI : g.Intact) (hF : g.WellFormed)
    (hUnitary : Everywhere UnitaryLevel g) (hFree : ∀ t v, I.carries t v)
    (hCarr : Carried qubits g.inputs lines) (hLines : ∀ l ∈ lines, Line.Fits qubits .qubit l) :
    ∃ ops outs, g.linearize qubits lines none = .ok (ops, outs) ∧
      Computes (.free I qubits) lines (g.meaning I) g.outputs ops outs ∧
      ∀ l ∈ outs, Line.Fits qubits .qubit l := by
  induction g using nested_induction generalizing lines with
  | step g ih =>
    have hS := hI.sound
    have hAdvances : Advances (.free I qubits) I g (fun _ m _ => OnQubits qubits m) := by
      intro node hN rest m ops into hQubits hInto hInputs
      have hIns := fun l => hQubits.into hS hInto (l := l)
      rcases hUnitary.here node hN with hGate | hRegion
      · rcases computes_gate hFree (hS.nodes node hN) hGate hInputs with
          ⟨op, hEmit, hComputes⟩
        exact ⟨[op], into, hEmit, hComputes, hQubits.sparesControls, hQubits.record hIns⟩
      · rcases (hS.nodes node hN).exists_body (hF.owned hN) (by rw [hRegion]; rfl)
          with ⟨body, hB, hBd⟩
        simp only [Node.signature, hRegion, hBd] at hInputs ⊢
        rcases ih node hN body hB (hI.body hN hB) (hF.body hN hB)
          (hUnitary.body hN hB) hInputs hIns with ⟨emitted, outs, hEmit, hComputes, hOuts⟩
        refine ⟨emitted, outs, ?_, ?_, hQubits.sparesControls, hQubits.record hOuts⟩
        · simp only [emitNode, hRegion, hB, Option.map_some]
          exact hEmit
        · simp only [Node.meaning, hRegion, hB, Option.map_some]
          exact hComputes
    have hStart : OnQubits qubits (LineMap.record [] inputId lines) := by
      refine OnQubits.record (m := []) (fun src l hFnd => ?_) hLines
      cases hFnd
    rcases hI.linearize_of_advances hF hFree hAdvances hCarr (fun _ _ => hStart) with
      ⟨m, ops, outs, hEmit, hQubits, hOuts, hComputes⟩
    exact ⟨ops, outs, hEmit, hComputes, fun l => hQubits.into hS hOuts⟩

end Graph

---- Permuted Lines ----

theorem exchange_eq (a b : Nat) (ns : List Nat) : exchange a b ns = ns.map (Equiv.swap a b) :=
  rfl

theorem exchange_perm {a b : Nat} {lines : List Nat} (hA : a < n) (hB : b < n)
    (hPerm : lines.Perm (List.range n)) : (exchange a b lines).Perm (List.range n) := by
  have hBelow : ∀ k, k < n → Equiv.swap a b k < n := by
    intro k hK
    rw [Equiv.swap_apply_def]
    split_ifs <;> assumption
  refine (hPerm.map _).trans ((perm_ext_iff_of_nodup
    (nodup_range.map (Equiv.injective (Equiv.swap a b))) nodup_range).mpr (fun k => ?_))
  rw [mem_map, mem_range]
  constructor
  · rintro ⟨i, hI, rfl⟩
    exact hBelow i (mem_range.mp hI)
  · intro hK
    exact ⟨Equiv.swap a b k, mem_range.mpr (hBelow k hK), Equiv.swap_apply_self _ _ _⟩

theorem swapsBack_sorted {js lines : List Nat} (hPerm : lines.Perm (List.range n))
    (hDone : ∀ i < n, i ∉ js → lines[i]? = some i) : (swapsBack js lines).2 = List.range n := by
  have hLen : lines.length = n := by simpa using hPerm.length_eq
  induction js generalizing lines with
  | nil =>
    change lines = List.range n
    refine ext_getElem? (fun i => ?_)
    by_cases hBound : i < n
    · rw [hDone i hBound not_mem_nil, getElem?_range hBound]
    · rw [getElem?_eq_none (by omega), getElem?_eq_none (by simp; omega)]
  | cons j js ih =>
    unfold swapsBack
    split
    · next hNone =>
      rw [List.getElem?_eq_none_iff] at hNone
      refine ih hPerm (fun i hBound hNot => hDone i hBound ?_) hLen
      rw [mem_cons, not_or]
      exact ⟨by omega, hNot⟩
    · next a hLine =>
      have hBound : j < n := hLen ▸ (lt_of_getElem? hLine)
      have hBound' : a < n := mem_range.mp (hPerm.subset (mem_of_getElem? hLine))
      split
      · next hSame =>
        refine ih hPerm (fun i hI hNot => ?_) hLen
        by_cases hHere : i = j
        · rw [hHere, hLine, hSame]
        · exact hDone i hI (by simp [hHere, hNot])
      · next hNe =>
        dsimp only
        have hNodup : lines.Nodup := hPerm.nodup_iff.mpr nodup_range
        refine ih (exchange_perm hBound' hBound hPerm) (fun i hI hNot => ?_)
          (by rw [exchange_eq, length_map, hLen])
        rw [exchange_eq, getElem?_map]
        by_cases hHere : i = j
        · rw [hHere, hLine, Option.map_some, Equiv.swap_apply_left]
        · have hPlace := hDone i hI (by simp [hHere, hNot])
          -- The line that is exchanged stands at one place only.
          have hOther : i ≠ a := by
            rintro rfl
            exact hHere ((getElem?_inj (hLen ▸ hI) hNodup).mp (hPlace.trans hLine.symm))
          rw [hPlace, Option.map_some, Equiv.swap_apply_of_ne_of_ne hOther hHere]

---- Circuits ----

namespace Graph

variable {K : Type} {g : Graph K}

/- Lines that carry as many qubits as there are, are all of them in some order. -/
theorem perm_of_carried {outs : List Line} (hCarr : Carried n (.replicate n .qubit) outs) :
    (outs.map Line.number).Perm (List.range n) := by
  have hNodup := hCarr.nodup_numbers (by simp)
  have hLen := hCarr.fits.length_eq
  rw [length_replicate] at hLen
  refine (List.subperm_of_subset hNodup (fun k hM => ?_)).perm_of_length_le (by simp [← hLen])
  rcases mem_map.mp hM with ⟨l, hLine, rfl⟩
  rcases mem_iff_getElem.mp hLine with ⟨i, hBound, rfl⟩
  have hFits := (forall₂_iff_get.mp hCarr.fits).2 i (by simp; omega) hBound
  simp only [get_eq_getElem, getElem_replicate] at hFits
  cases hHere : outs[i] with
  | plain k =>
    rw [hHere] at hFits
    exact mem_range.mpr hFits
  | control k =>
    rw [hHere] at hFits
    exact hFits.elim

theorem Intact.toCircuit_unitary (hIntact : g.Intact) (hF : g.WellFormed)
    (hUnitary : Everywhere UnitaryLevel g) (hQubits : g.inputs = .replicate n .qubit)
    (hSame : g.outputs = g.inputs) (hFree : ∀ t v, I.carries t v) :
    ∃ ops, g.toCircuit = .ok ⟨.whole n, .whole 0, ops⟩ ∧
      ((Execution.free I n).Swaps → ∀ s : Nat → V,
        (List.range n).map (Operation.performAll I n ops s) =
          g.meaning I ((List.range n).map s)) := by
  have hCount : g.inputs.count .qubit = n := by rw [hQubits, count_replicate_self]
  have hLen : g.inputs.length = n := by rw [hQubits, length_replicate]
  have hShaped : g.circuitShaped = true := by
    refine circuitShaped_iff.mpr ⟨hSame.symm, ?_, ?_⟩
    · rw [hQubits]
      simp
    · rw [hCount, hQubits, take_replicate, Nat.min_self]
  have hCarr := carried_of_circuitShaped hShaped
  rw [hCount, hLen] at hCarr
  rcases hIntact.linearize_unitary hF hUnitary hFree hCarr (by simp [Line.Fits]) with
    ⟨ops, outs, hEmit, hComputes, -⟩
  have hPerm := perm_of_carried (hQubits ▸ hSame ▸ hComputes.carried)
  have hBack : (swapsBack (List.range n) (outs.map Line.number)).2 = List.range n :=
    swapsBack_sorted hPerm (fun i hI hNot => absurd (mem_range.mpr hI) hNot)
  refine ⟨ops ++ (swapsBack (List.range n) (outs.map Line.number)).1, ?_, fun hSwaps s => ?_⟩
  · unfold toCircuit
    simp only [hCount, hLen, hShaped, Nat.sub_self, Nat.add_zero]
    rw [if_neg (by decide)]
    refine bind_eq_ok_iff.mpr ⟨(ops, outs), hEmit, ?_⟩
    rw [if_neg (not_not_intro hBack)]
    rfl
  · have hSwapped := hSwaps.run_swapsBack (List.range n) (outs.map Line.number)
      (Operation.performAll I n ops s)
    rw [hBack] at hSwapped
    have hStart : readLines s ((List.range n).map Line.plain) = (List.range n).map s := by
      rw [readLines, map_map]
      rfl
    rw [← hStart, hComputes.values, readLines]
    refine Eq.trans ?_ (hSwapped.trans map_map)
    refine map_congr_left (fun k _ => congrFun ?_ k)
    exact (Execution.free I n).append ops _ s

/-
  A graph of unitary gates and regions with qubits at its
  boundary has a circuit.  In every interpretation of gates in
  which swaps exchange their values, the circuit ends with the
  values that the graph gives, one on each line.
-/
theorem performAll_toCircuit
    {K : Type}
    {g : Graph K}
    (hIntact : g.Intact)
    (hValid : g.validate = .ok ())
    (hUnitary : Everywhere UnitaryLevel g)
    (hQubits : ∀ t ∈ g.inputs, t = .qubit)
    (hSame : g.outputs = g.inputs) :
    ∃ ops, g.toCircuit = .ok ⟨.whole g.inputs.length, .whole 0, ops⟩ ∧
      ∀ {V : Type} (I : Interpretation V), (∀ t v, I.carries t v) →
        (∀ a b, I.gate .swap [] [a, b] = [b, a]) → ∀ s : Nat → V,
          (List.range g.inputs.length).map (Operation.performAll I g.inputs.length ops s) =
            g.meaning I ((List.range g.inputs.length).map s) := by
  have hFormed : g.WellFormed := hIntact.validate_ok_iff.mp hValid
  have hInputs : g.inputs = .replicate g.inputs.length .qubit :=
    eq_replicate_iff.mpr ⟨rfl, hQubits⟩
  rcases hIntact.toCircuit_unitary (I := .classical) hFormed hUnitary hInputs hSame
    (fun _ _ => trivial) with ⟨ops, hCircuit, -⟩
  refine ⟨ops, hCircuit, fun I hFree hSwap s => ?_⟩
  rcases hIntact.toCircuit_unitary hFormed hUnitary hInputs hSame hFree with
    ⟨ops', hCircuit', hRun⟩
  cases hCircuit.symm.trans hCircuit'
  exact hRun (Execution.free_swaps hSwap) s

def crossedInverter : Graph ℚ :=
  (Graph.empty [.qubit, .qubit] [.qubit, .qubit]).after
    [.addNode .region [] (some inverter), wireCall (0, 0) (2, 0), wireCall (2, 0) (1, 1),
      wireCall (0, 1) (1, 0)]

theorem performAll_toCircuit_crossed :
    ∃ ops, crossedInverter.toCircuit = .ok ⟨.whole 2, .whole 0, ops⟩ ∧
      ∀ s : Nat → Bool, (List.range 2).map (Operation.performAll .classical 2 ops s) =
        crossedInverter.meaning .classical ((List.range 2).map s) := by
  have hReach : crossedInverter.Reachable :=
    (Reachable.empty _ _).after_builds (by simp [GraphCall.Builds, wireCall, inverter_reachable])
  have hValid : crossedInverter.validate.toOption.any (fun _ => true) = true := by decide +kernel
  rcases exists_of_toOption_any hValid with ⟨_, hValid, -⟩
  have hInside : Everywhere UnitaryLevel inverter := by
    refine .intro (fun node hNode => ?_) (fun node hNode => ?_) <;>
      rw [show inverter.ops = [⟨2, .x, [], none, none⟩] from rfl, mem_singleton] at hNode <;>
      subst hNode
    · exact .inl rfl
    · intro body hBody
      cases hBody
  have hUnitary : Everywhere UnitaryLevel crossedInverter := by
    refine .intro (fun node hNode => ?_) (fun node hNode => ?_) <;>
      rw [show crossedInverter.ops = [⟨2, .region, [], some inverter, none⟩] from rfl,
        mem_singleton] at hNode <;>
      subst hNode
    · exact .inr rfl
    · intro body hBody
      cases hBody
      exact hInside
  rcases performAll_toCircuit hReach.intact hValid hUnitary (by decide) rfl with
    ⟨ops, hCircuit, hRun⟩
  exact ⟨ops, hCircuit, fun s => hRun .classical (fun _ _ => trivial) (fun _ _ => rfl) s⟩

end Graph

end CircuitGraph
