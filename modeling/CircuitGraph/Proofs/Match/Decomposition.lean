import CircuitGraph.Proofs.Match.Vicinity

/-
  The decomposition of a pattern.

  Tracing reaches the operations that are joined to the first
  one by wires between operations.

  Main declarations:
    * `Connected`: patterns in one piece
    * `decomposition_exact`
-/

---- Connected Operations ----

namespace CircuitGraph

open List

variable {K : Type} {g : Graph K} {root : Nat} {t : Tracing}

namespace Graph

/- Whether a wire runs between two operations, in whatever direction. -/
def Linked (g : Graph K) (m n : Nat) : Prop :=
  m ∈ g.opIds ∧ n ∈ g.opIds ∧ g.Adjacent m n

def Connected (g : Graph K) : Prop :=
  ∀ m ∈ g.opIds, ∀ n ∈ g.opIds, Relation.ReflTransGen g.Linked m n

end Graph

/- Each node after the first is one wire away from an earlier one. -/
theorem Tells.exists_near {nodes : List Nat} {cs : List Constraint} {ws : List Wire} {n k : Nat}
    (hTells : Tells g nodes n cs ws) (hFrom : n ≤ k) (hTo : k < boundAfter n cs) :
    ∃ j < k, ∃ w ∈ ws, ∃ side, nodes[j]? = some (w.near side).node ∧
      nodes[k]? = some (w.far side).node := by
  induction hTells with
  | nil => exact absurd hTo (Nat.not_lt.mpr hFrom)
  | link _ _ _ _ _ ih =>
    rcases ih hFrom hTo with ⟨j, hLt, w, hM, hEnds⟩
    exact ⟨j, hLt, w, mem_cons_of_mem _ hM, hEnds⟩
  | follow hVar hNear hFar _ ih =>
    rcases Nat.eq_or_lt_of_le hFrom with rfl | hLater
    · exact ⟨_, hVar, _, mem_cons_self, _, hNear, hFar⟩
    · rcases ih hLater hTo with ⟨j, hLt, w, hM, hEnds⟩
      exact ⟨j, hLt, w, mem_cons_of_mem _ hM, hEnds⟩

namespace Traced

theorem linked_of_index (hTr : Traced g root t) (k : Nat) :
    ∀ n, t.nodes[k]? = some n → Relation.ReflTransGen g.Linked root n := by
  rcases hTr.tells with ⟨rest, -, hBound, hTells⟩
  induction k using Nat.strongRecOn with
  | ind k ih =>
    intro n hAt
    cases k with
    | zero =>
      rw [← head?_eq_getElem?, hTr.first] at hAt
      exact Option.some.inj hAt ▸ .refl
    | succ k =>
      rcases hTells.exists_near (Nat.succ_pos k) (hBound ▸ (lt_of_getElem? hAt)) with
        ⟨j, hLt, w, hM, side, hNear, hFar⟩
      obtain rfl := Option.some.inj (hAt.symm.trans hFar)
      refine (ih j hLt _ hNear).tail ⟨hTr.ops _ (mem_of_getElem? hNear),
        hTr.ops _ (mem_of_getElem? hAt), ?_⟩
      have hWire := hTr.wires w (mem_reverse.mp hM)
      cases side
      · exact .inr ⟨w, hWire, rfl, rfl⟩
      · exact .inl ⟨w, hWire, rfl, rfl⟩

theorem mem_nodes_iff (hTr : Traced g root t) (hS : g.Sound)
    (hSwept : ∀ n ∈ t.nodes, Graph.Sound.Swept g t n) {n : Nat} :
    n ∈ t.nodes ↔ Relation.ReflTransGen g.Linked root n := by
  constructor
  · intro hMem
    rcases getElem?_of_mem hMem with ⟨k, hAt⟩
    exact hTr.linked_of_index k n hAt
  · intro hPath
    rcases hTr.tells with ⟨rest, -, -, hTells⟩
    induction hPath with
    | refl => exact mem_of_mem_head? hTr.first
    | @tail m n _ hStep ih =>
      -- the wire has been taken from its end that was reached
      rcases hStep with ⟨hM, hN, ⟨w, hWire, rfl, rfl⟩ | ⟨w, hWire, rfl, rfl⟩⟩
      · have hSeen := hSwept _ ih w hWire .output rfl (hS.isOpId_of_mem_opIds hN)
        exact (hTells.mem_nodes (mem_reverse.mpr hSeen)).2
      · have hSeen := hSwept _ ih w hWire .input rfl (hS.isOpId_of_mem_opIds hN)
        exact (hTells.mem_nodes (mem_reverse.mpr hSeen)).1

theorem length_eq_iff (hTr : Traced g root t) (hS : g.Sound) :
    t.nodes.length = g.ops.length ↔ t.nodes.Perm g.opIds := by
  rw [← hS.length_opIds]
  exact ⟨fun hEq => (hTr.nodup.subperm hTr.ops).perm_of_length_le hEq.ge, Perm.length_eq⟩

theorem connected_iff (hTr : Traced g root t) (hS : g.Sound)
    (hSwept : ∀ n ∈ t.nodes, Graph.Sound.Swept g t n) : g.Connected ↔ t.nodes.Perm g.opIds := by
  have : Std.Symm g.Linked :=
    ⟨fun _ _ hLinked => ⟨hLinked.2.1, hLinked.1, hLinked.2.2.symm⟩⟩
  constructor
  · intro hConnected
    refine (perm_ext_iff_of_nodup hTr.nodup (Graph.opIds_nodup g)).mpr (fun n => ?_)
    refine ⟨hTr.ops n, fun hMem => (hTr.mem_nodes_iff hS hSwept).mpr ?_⟩
    exact hConnected root (hTr.ops _ (mem_of_mem_head? hTr.first)) n hMem
  · intro hPerm m hM n hN
    have hPath : ∀ n ∈ g.opIds, Relation.ReflTransGen g.Linked root n :=
      fun n hMem => (hTr.mem_nodes_iff hS hSwept).mp (hPerm.mem_iff.mpr hMem)
    exact (Relation.ReflTransGen.stdSymm.symm _ _ (hPath m hM)).trans (hPath n hN)

end Traced

---- Patterns ----

theorem exists_spot {nodes : List Nat} {q : Pin} (hM : q.node ∈ nodes) :
    ∃ spot, Pattern.spot nodes q = .ok spot := by
  unfold Pattern.spot
  cases hFnd : nodes.idxOf? q.node with
  | some var => exact ⟨_, rfl⟩
  | none => exact absurd hM (idxOf?_eq_none_iff.mp hFnd)

theorem Rule.Usable.ofGraph_cases {rule : Rule K} (hUse : rule.Usable) :
    ∃ root later t, rule.pattern.operationOrder = .ok (root :: later) ∧
      Traced rule.pattern root t ∧ (∀ n ∈ t.nodes, Graph.Sound.Swept rule.pattern t n) ∧
      (¬ t.nodes.Perm rule.pattern.opIds ∧
          (∃ lost, Pattern.ofGraph rule.pattern = .error (.disconnected lost root)) ∨
        t.nodes.Perm rule.pattern.opIds ∧ ∃ p, Pattern.ofGraph rule.pattern = .ok p ∧
          p.nodes = t.nodes ∧ p.constraints = t.constraints) := by
  have hS := hUse.pattern.sound
  rcases hS.exists_operationOrder hUse.patternFormed.acyclic with ⟨order, hOrder⟩
  have hPerm := (hS.operationOrder_ok hOrder).1
  rcases order with _ | ⟨root, later⟩
  · rw [nil_perm, ← length_eq_zero_iff, hS.length_opIds] at hPerm
    exact absurd (length_eq_zero_iff.mp hPerm) hUse.isPattern.nonempty
  · rcases hS.exists_trace hUse.patternFormed.complete (hPerm.subset mem_cons_self) with
      ⟨t, hTrace, hTr, hSwept⟩
    refine ⟨root, later, t, hOrder, hTr, hSwept, ?_⟩
    by_cases hLen : t.nodes.length = rule.pattern.ops.length
    · have hNodes := (hTr.length_eq_iff hS).mp hLen
      have hEntry : ∀ i ∈ List.range rule.pattern.inputs.length,
          ∃ spots, (rule.pattern.targets inputId i).mapM (Pattern.spot t.nodes) = .ok spots := by
        intro i hI
        rcases hUse.isPattern.entry i (mem_range.mp hI) with ⟨q, hTargets, hOp⟩
        rw [hTargets]
        exact exists_mapM_eq_ok (by simpa using exists_spot (hNodes.mem_iff.mpr hOp))
      have hExit : ∀ j ∈ List.range rule.pattern.outputs.length,
          ∃ spot, Pattern.outputSpot rule.pattern t.nodes j = .ok spot := by
        intro j hJ
        rcases hUse.isPattern.exit j (mem_range.mp hJ) with ⟨q, hSrc, hOp⟩
        simpa only [Pattern.outputSpot, hSrc] using exists_spot (hNodes.mem_iff.mpr hOp)
      rcases exists_mapM_eq_ok hEntry with ⟨inputs, hInputs⟩
      rcases exists_mapM_eq_ok hExit with ⟨outputs, hOuts⟩
      refine .inr ⟨hNodes, ⟨t.constraints, t.nodes, inputs, outputs,
          t.nodes.map (fun n => (rule.pattern.signatureOf n).outputs.length)⟩,
        bind_eq_ok_iff.mpr ⟨_, hOrder, bind_eq_ok_iff.mpr ⟨t, hTrace, ?_⟩⟩, rfl, rfl⟩
      rw [if_neg (by simpa using hLen)]
      exact bind_eq_ok_iff.mpr ⟨inputs, hInputs, bind_eq_ok_iff.mpr ⟨outputs, hOuts, rfl⟩⟩
    · refine .inl ⟨fun hNodes => hLen ((hTr.length_eq_iff hS).mpr hNodes),
        rule.pattern.opIds.filter (fun n => !t.nodes.contains n), ?_⟩
      simp [Pattern.ofGraph, hOrder, hTrace, hLen, bind, Except.bind, throw, throwThe,
        MonadExceptOf.throw]

/-
  A checked pattern is refused exactly if its operations are
  not connected.  Otherwise its variables are its operations,
  the first one in topological order first, and each wire
  between operations has one constraint.  Different operations
  meet the constraints exactly if kinds, parameters and wires
  are as in the pattern.
-/
theorem decomposition_exact [Scalar K] {rule : Rule K} (hReach : rule.Reachable)
    (hCheck : rule.check = .ok ()) :
    ((∃ lost root, Pattern.ofGraph rule.pattern = .error (.disconnected lost root)) ↔
      ¬ rule.pattern.Connected) ∧
    (rule.pattern.Connected → ∃ p root later rest ws, Pattern.ofGraph rule.pattern = .ok p ∧
      rule.pattern.operationOrder = .ok (root :: later) ∧
      p.nodes.Perm rule.pattern.opIds ∧ p.nodes.head? = some root ∧
      p.constraints =
        .root ((rule.pattern.kindOf? root).getD .input) (rule.pattern.paramsOf root) :: rest ∧
      Tells rule.pattern p.nodes 1 rest ws ∧ boundAfter 1 rest = p.nodes.length ∧
      ws.Perm (rule.pattern.wires.filter (fun w => isOpId w.src.node && isOpId w.dst.node)) ∧
      ∀ (host : Graph K) (f : Nat → Nat), host.Sound →
        (∀ n ∈ rule.pattern.opIds, f n ∈ host.opIds) →
        (∀ m ∈ rule.pattern.opIds, ∀ n ∈ rule.pattern.opIds, f m = f n → m = n) →
        ((∃ b ∈ bindingsAlong host [.number (f root)] p.constraints, idsOf b = p.nodes.map f) ↔
          (∀ n ∈ rule.pattern.opIds, host.kindOf? (f n) = rule.pattern.kindOf? n ∧
            paramsMatch (Param.values (rule.pattern.paramsOf n))
              (Param.values (host.paramsOf (f n))) = true) ∧
          ∀ w ∈ rule.pattern.wires, isOpId w.src.node = true → isOpId w.dst.node = true →
            host.Wired (f w.src.node, w.src.index) (f w.dst.node, w.dst.index))) := by
  have hUsable := Rule.usable_of_check hReach.1.intact hReach.2.intact hCheck
  have hSound := hUsable.pattern.sound
  rcases hUsable.ofGraph_cases with ⟨root, later, t, hOrder, hTraced, hSwept, hCases⟩
  have hConnected := hTraced.connected_iff hSound hSwept
  rcases hCases with ⟨hNot, lost, hError⟩ | ⟨hNodes, p, hPattern, hSame, hConstraints⟩
  · exact ⟨iff_of_true ⟨lost, root, hError⟩ (hConnected.not.mpr hNot),
      fun hAll => absurd (hConnected.mp hAll) hNot⟩
  · refine ⟨iff_of_false (by simp [hPattern]) (not_not.mpr (hConnected.mpr hNodes)), fun _ => ?_⟩
    have hDescribes := hSound.describes_ofGraph hUsable.patternFormed.complete hPattern
    rcases hTraced.tells with ⟨rest, hRest, hBound, hTells⟩
    rw [← hSame] at hNodes hBound hTells
    refine ⟨p, root, later, rest, t.seen.reverse, hPattern, hOrder, hNodes, hSame ▸ hTraced.first,
      hConstraints.trans hRest, hTells, hBound, ?_, fun host f hHost hOps hInjective => ?_⟩
    · refine (reverse_perm _).trans ((perm_ext_iff_of_nodup hTraced.seen
        (hSound.wires_nodup.filter _)).mpr (fun w => ?_))
      rw [hTraced.mem_seen_iff hSound hSwept, ← hSame, hNodes.mem_iff, hNodes.mem_iff, mem_filter,
        Bool.and_eq_true]
      refine and_congr_right (fun hMem => ?_)
      have hEnds := hSound.edge_mem ⟨w, hMem, rfl, rfl⟩
      rw [hSound.mem_opIds_iff_isOpId hEnds.1, hSound.mem_opIds_iff_isOpId hEnds.2]
    · have hDiffer : (p.nodes.map f).Nodup :=
        (hDescribes.nodes.nodup_iff.mpr (Graph.opIds_nodup _)).map_on (fun m hM n hN =>
          hInjective m (hNodes.subset hM) n (hNodes.subset hN))
      have hTail : ∀ n ∈ p.nodes.tail, isOpId (f n) = true := fun n hMem =>
        hHost.isOpId_of_mem_opIds (hOps n (hNodes.subset (mem_of_mem_tail hMem)))
      have hPrefix : idsOf [.number (f root)] <+: p.nodes.map f := by
        rcases head?_eq_some_iff.mp (hSame ▸ hTraced.first) with ⟨others, hFirst⟩
        rw [hFirst]
        exact ⟨others.map f, rfl⟩
      have hFits : (∀ n ∈ p.nodes, rule.pattern.Fits host n (f n)) ↔
          ∀ n ∈ rule.pattern.opIds, host.kindOf? (f n) = rule.pattern.kindOf? n ∧
            paramsMatch (Param.values (rule.pattern.paramsOf n))
              (Param.values (host.paramsOf (f n))) = true := by
        refine forall_congr' (fun n => ?_)
        rw [hNodes.mem_iff]
        exact imp_congr_right (fun hMem => hSound.fits_iff hMem)
      rw [hHost.exists_bindingsAlong_iff (by simp), length_singleton, hDescribes.meaning, hFits,
        length_map, hDescribes.bound]
      simp only [hPrefix, hDiffer, true_and]
      exact and_congr_right' (and_iff_right hTail)

/- Two controlled inversions in a row are joined by two wires. -/
theorem decomposition_exact_inversions :
    ∃ rule : Rule ℚ, rule.Reachable ∧ rule.check = .ok () ∧ rule.pattern.Connected ∧
      ∃ p, Pattern.ofGraph rule.pattern = .ok p ∧ p.nodes.Perm rule.pattern.opIds := by
  have hOk : (do
      let rule ← Rule.ofCircuits (K := ℚ) (Identities.circuit 2 [(.cx, [0, 1]), (.cx, [0, 1])])
        (Identities.circuit 2 []) (.whole 0) .null
      rule.check
      Pattern.ofGraph rule.pattern).isOk = true := by decide +kernel
  rcases exists_of_isOk hOk with ⟨p, hRun⟩
  rcases bind_eq_ok_iff.mp hRun with ⟨rule, hRule, hRest⟩
  rcases bind_eq_ok_iff.mp hRest with ⟨⟨⟩, hCheck, hPattern⟩
  have hReach := Rule.reachable_of_ofCircuits hRule
  have hExact := decomposition_exact hReach hCheck
  have hConnected : rule.pattern.Connected := by
    by_contra hNot
    rcases hExact.1.mpr hNot with ⟨lost, root, hError⟩
    rw [hPattern] at hError
    cases hError
  rcases hExact.2 hConnected with ⟨q, -, -, -, -, hQ, -, hNodes, -⟩
  exact ⟨rule, hReach, hCheck, hConnected, q, hQ, hNodes⟩

end CircuitGraph
