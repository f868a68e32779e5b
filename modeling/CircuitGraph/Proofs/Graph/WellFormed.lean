import CircuitGraph.Proofs.Graph.Order
import CircuitGraph.Proofs.Running

/-
  What the validity check says.

  The check passes exactly if at every level all inputs are
  fed, all linear outputs are used and there is no cycle, and
  if no graph contains itself.
-/

---- Well-Formed Graphs ----

namespace CircuitGraph

namespace Graph

variable {K : Type}

/- Whether no pin that needs a wire is without one. -/
structure Complete (g : Graph K) : Prop where
  fed : ∀ place t, g.inType? place = some t → ∃ src, g.Wired src place
  used : ∀ place t, g.outType? place = some t → t ≠ .bool → ∃ dst, g.Wired place dst

/- A graph that is complete and without cycles at every level. -/
inductive WellFormed : Graph K → Prop where
  | intro (g : Graph K) (complete : g.Complete) (acyclic : g.Acyclic)
      (owned : ∀ node ∈ g.ops, node.enclosing = none)
      (bodies : ∀ node ∈ g.ops, ∀ body, node.body = some body → WellFormed body) :
      WellFormed g

namespace WellFormed

variable {g : Graph K}

theorem complete (hF : g.WellFormed) : g.Complete := by
  cases hF with
  | intro _ hCom _ _ _ => exact hCom

theorem acyclic (hF : g.WellFormed) : g.Acyclic := by
  cases hF with
  | intro _ _ hAcy _ _ => exact hAcy

theorem owned (hF : g.WellFormed) {node : Node (Graph K)} (hN : node ∈ g.ops) :
    node.enclosing = none := by
  cases hF with
  | intro _ _ _ hOwned _ => exact hOwned node hN

theorem body (hF : g.WellFormed) {node : Node (Graph K)} {body : Graph K}
    (hN : node ∈ g.ops) (hB : node.body = some body) : body.WellFormed := by
  cases hF with
  | intro _ _ _ _ hBodies => exact hBodies node hN body hB

end WellFormed

---- Checks of Pins ----

namespace Sound

variable {g : Graph K}

theorem wires_nodup (hS : g.Sound) : g.wires.Nodup :=
  List.Nodup.of_map _ hS.single

theorem checkInput_ok_iff (hS : g.Sound) {n i : Nat} {t : WireType}
    (hType : g.inType? (n, i) = some t) :
    g.checkInput n i t = .ok () ↔ ∃ src, g.Wired src (n, i) := by
  unfold checkInput
  cases hWire : g.wireInto? n i with
  | none =>
    simp only [reduceCtorEq, false_iff]
    rintro ⟨src, w, hM, -, hDst⟩
    rw [hS.wireInto?_iff.mpr ⟨hM, hDst⟩] at hWire
    exact Option.some_ne_none _ hWire
  | some w =>
    rcases hS.wireInto?_iff.mp hWire with ⟨hM, hDst⟩
    rcases hS.typed w hM with ⟨carried, hOut, hIn⟩
    rw [hDst, hType] at hIn
    obtain rfl : t = carried := by simpa using hIn
    have hCarr : g.carriedType? w.src = some t := hOut
    simp only [hCarr, if_pos, true_iff]
    exact ⟨w.src.place, w, hM, rfl, hDst⟩

theorem checkOutput_ok_iff (hS : g.Sound) {n i : Nat} {t : WireType}
    (hType : g.outType? (n, i) = some t) :
    g.checkOutput n i t = .ok () ↔ (t ≠ .bool → ∃ dst, g.Wired (n, i) dst) := by
  have hOne : t ≠ .bool → ((g.wiresFrom n i).length = 1 ↔ ∃ dst, g.Wired (n, i) dst) := by
    intro hLin
    constructor
    · intro hLen
      rcases List.length_eq_one_iff.mp hLen with ⟨w, hWires⟩
      have hM : w ∈ g.wiresFrom n i := by simp [hWires]
      rcases mem_wiresFrom_iff.mp hM with ⟨hM, hSrc⟩
      exact ⟨w.dst.place, w, hM, hSrc, rfl⟩
    · rintro ⟨dst, w, hM, hSrc, -⟩
      -- All wires from a linear place are the same one, and it is listed once.
      have hAll : ∀ v ∈ g.wiresFrom n i, v = w := by
        intro v hFrom
        rcases mem_wiresFrom_iff.mp hFrom with ⟨hMemV, hSrcV⟩
        refine hS.linear v hMemV w hM (hSrcV.trans hSrc.symm) ?_
        rw [hSrcV, hType]
        simpa using hLin
      have hFrom := mem_wiresFrom_iff.mpr ⟨hM, hSrc⟩
      have hNodup : (g.wiresFrom n i).Nodup := hS.wires_nodup.filter _
      rw [eq_singleton_of_nodup hNodup hFrom hAll]
      rfl
  unfold checkOutput
  cases t with
  | bool => simp [WireType.copyable]
  | qubit => simpa [WireType.copyable] using hOne (by decide)
  | bit => simpa [WireType.copyable] using hOne (by decide)

theorem checkNode_ok_iff (hS : g.Sound) {n : Nat} : g.checkNode n = .ok () ↔
      (∀ i t, g.inType? (n, i) = some t → ∃ src, g.Wired src (n, i)) ∧
      (∀ i t, g.outType? (n, i) = some t → t ≠ .bool → ∃ dst, g.Wired (n, i) dst) := by
  unfold checkNode
  rw [bind_eq_ok_iff]
  simp only [forM_eq_ok_iff, Prod.forall, List.mk_mem_zipIdx_iff_getElem?]
  constructor
  · rintro ⟨-, hInputs, hOuts⟩
    exact ⟨fun i t hType => (hS.checkInput_ok_iff hType).mp (hInputs t i hType),
      fun i t hType => (hS.checkOutput_ok_iff hType).mp (hOuts t i hType)⟩
  · rintro ⟨hInputs, hOuts⟩
    exact ⟨(), fun t i hType => (hS.checkInput_ok_iff hType).mpr (hInputs i t hType),
      fun t i hType => (hS.checkOutput_ok_iff hType).mpr (hOuts i t hType)⟩

theorem complete_iff (hS : g.Sound) : g.Complete ↔ ∀ n ∈ g.nodeIds, g.checkNode n = .ok () := by
  constructor
  · intro hCom n _
    rw [hS.checkNode_ok_iff]
    exact ⟨fun i t hType => hCom.fed (n, i) t hType, fun i t hType => hCom.used (n, i) t hType⟩
  · intro hNodes
    constructor
    · rintro ⟨n, i⟩ t hType
      have hN := hNodes n (mem_nodeIds_of_inType? hType)
      exact (hS.checkNode_ok_iff.mp hN).1 i t hType
    · rintro ⟨n, i⟩ t hType
      have hN := hNodes n (mem_nodeIds_of_outType? hType)
      exact (hS.checkNode_ok_iff.mp hN).2 i t hType

end Sound

---- The Check of a Graph ----

variable {g : Graph K}

theorem validateLevel_ok_iff {bodies : List (Nat × Except Fault Unit)} :
    g.validateLevel bodies = .ok () ↔ (∀ n ∈ g.nodeIds, g.checkNode n = .ok ()) ∧
      (∀ node ∈ g.ops, (valueOf? bodies node.id).getD (.ok ()) = .ok ()) ∧
      ∃ order, g.topologicalOrder = .ok order := by
  unfold validateLevel
  simp only [bind_eq_ok_iff, forM_eq_ok_iff, pure, Except.pure, and_true]
  constructor
  · rintro ⟨_, hInput, _, hOutp, _, hNodes, order, hOrder⟩
    refine ⟨?_, fun node hN => ?_, order, hOrder⟩
    · intro n hM
      rcases mem_nodeIds_iff.mp hM with rfl | rfl | hOp
      · exact hInput
      · exact hOutp
      · rcases mem_opIds_iff.mp hOp with ⟨node, hN, rfl⟩
        rcases hNodes node hN with ⟨_, hCheck, _⟩
        exact hCheck
    · rcases hNodes node hN with ⟨-, -, hB⟩
      exact hB
  · rintro ⟨hNodes, hBodies, order, hOrder⟩
    refine ⟨(), hNodes _ (mem_nodeIds_iff.mpr (.inl rfl)), (),
      hNodes _ (mem_nodeIds_iff.mpr (.inr (.inl rfl))), (), fun node hN => ?_, order, hOrder⟩
    refine ⟨(), hNodes _ (mem_nodeIds_of_op ?_), hBodies node hN⟩
    exact mem_opIds_of_mem hN

theorem validate_eq (g : Graph K) :
    g.validate = g.validateLevel (g.nestedValues validate (.error .tooDeep)) :=
  foldWith_eq _ _ g

theorem Sound.nestedCheck_ok_iff (hS : g.Sound) {node : Node (Graph K)} (hN : node ∈ g.ops) :
    (valueOf? (g.nestedValues validate (.error .tooDeep)) node.id).getD (.ok ()) = .ok () ↔
      node.enclosing = none ∧ ∀ body, node.body = some body → body.validate = .ok () := by
  rw [hS.valueOf?_nested validate _ hN]
  cases hB : node.body with
  | none => cases hEnclosing : node.enclosing <;> simp
  | some body =>
    have hOwned : node.enclosing = none := by
      simpa [hB] using (hS.nodes node hN).owned
    simp [hOwned]

theorem Intact.validate_ok_iff (hI : g.Intact) : g.validate = .ok () ↔ g.WellFormed := by
  induction g using nested_induction with
  | step g ih =>
    have hS := hI.sound
    rw [validate_eq, validateLevel_ok_iff, ← hS.complete_iff]
    constructor
    · rintro ⟨hCom, hNodes, order, hOrder⟩
      refine .intro g hCom (hS.acyclic_of_topologicalOrder hOrder) ?_ ?_
      · exact fun node hN => ((hS.nestedCheck_ok_iff hN).mp (hNodes node hN)).1
      · intro node hN body hB
        refine (ih node hN body hB (hI.body hN hB)).mp ?_
        exact ((hS.nestedCheck_ok_iff hN).mp (hNodes node hN)).2 body hB
    · intro hF
      refine ⟨hF.complete, fun node hN => ?_, hS.exists_topologicalOrder hF.acyclic⟩
      refine (hS.nestedCheck_ok_iff hN).mpr ⟨hF.owned hN, fun body hB => ?_⟩
      exact (ih node hN body hB (hI.body hN hB)).mpr (hF.body hN hB)

end Graph

end CircuitGraph
