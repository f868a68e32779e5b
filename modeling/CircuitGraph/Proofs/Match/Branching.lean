import CircuitGraph.Proofs.Match.Finding

/-
  Searches that never branch.

  The operations of a pattern take no control values, and all
  other wires are linear.

  Main declarations:
    * `findMatches_never_branches`
-/

---- Linear Wires ----

namespace CircuitGraph

open List

variable {K : Type} {g : Graph K}

namespace Graph

theorem IsPattern.outType?_ne_bool (hPat : g.IsPattern) (hS : g.Sound) {w : Wire}
    (hWire : w ∈ g.wires) (hOp : w.dst.node ∈ g.opIds) : g.outType? w.src.place ≠ some .bool := by
  rcases mem_opIds_iff.mp hOp with ⟨node, hN, hId⟩
  exact hS.outType?_ne_bool hWire hN hId (hPat.gates node hN)

theorem IsPattern.bool_notMem_inputs (hPat : g.IsPattern) (hS : g.Sound) : .bool ∉ g.inputs := by
  intro hM
  rcases getElem?_of_mem hM with ⟨i, hType⟩
  rcases hPat.entry i (lt_of_getElem? hType) with ⟨q, hTargets, hOp⟩
  have hTarget : q ∈ g.targets inputId i := hTargets ▸ mem_singleton_self q
  rcases mem_targets_iff.mp hTarget with ⟨w, hWire, hSrc, rfl⟩
  refine hPat.outType?_ne_bool hS hWire hOp ?_
  rw [hSrc, outType?, signatureOf_inputId]
  exact hType

end Graph

---- Ways On ----

theorem Graph.Sound.length_advance_le (hS : g.Sound) {c : Constraint}
    (hGate : ∀ kind, c.kind? = some kind → kind.isContainer = false) (binding : List Slot) :
    (c.advance g binding).length ≤ 1 := by
  cases c with
  | root kind params =>
    rw [Constraint.advance]
    split <;> simp
  | link var side index other target =>
    rw [Constraint.advance]
    split
    · dsimp only
      split <;> split <;> simp
    · simp
  | follow var side index target kind params =>
    rw [Constraint.advance]
    split
    · simp
    · rename_i s _
      rw [length_map]
      cases side with
      | input => exact (length_filter_le _ _).trans (Option.length_toList_le)
      | output =>
        refine length_le_one_of_nodup ((hS.targets_nodup _ _).of_map.filter _) ?_
        intro p hP q hQ
        simp only [Constraint.farPins, mem_filter, mem_targets_iff, Bool.and_eq_true] at hP hQ
        rcases hP with ⟨⟨v, hV, hSrc, rfl⟩, ⟨⟨-, hOp⟩, -⟩, hFits⟩
        rcases hQ with ⟨⟨w, hW, hSrc', rfl⟩, -⟩
        have hThere := (hS.mem_opIds_iff_isOpId (hS.edge_mem ⟨v, hV, rfl, rfl⟩).2).mpr hOp
        rcases mem_opIds_iff.mp hThere with ⟨node, hN, hId⟩
        have hKind := hId ▸ hS.kindOf?_id hN
        have hLin := hS.outType?_ne_bool hV hN hId
          (hGate _ ((beq_iff_eq.mp (Bool.and_eq_true_iff.mp hFits).1).symm.trans hKind))
        rw [hS.linear v hV w hW (hSrc.trans hSrc'.symm) hLin]

theorem length_bindingsAlong_le {cs : List Constraint}
    (hEach : ∀ c ∈ cs, ∀ binding, (c.advance g binding).length ≤ 1) (binding : List Slot) :
    (bindingsAlong g binding cs).length ≤ 1 := by
  induction cs generalizing binding with
  | nil => exact Nat.le_refl 1
  | cons c cs ih =>
    have hOne := hEach c mem_cons_self binding
    have hRest := ih (fun d hM => hEach d (mem_cons_of_mem _ hM))
    rw [bindingsAlong]
    generalize c.advance g binding = next at hOne ⊢
    rcases next with _ | ⟨b, _ | ⟨b', rest⟩⟩
    · exact Nat.zero_le 1
    · simpa using hRest b
    · exact absurd hOne (by simp)

---- Matches at an Anchor ----

namespace RuleSet

variable {rs : RuleSet K}

theorem Compiled.length_advance_le (hCompiled : rs.Compiled) (hS : g.Sound) {p : Pattern}
    (hM : p ∈ rs.patterns) {c : Constraint} (hC : c ∈ p.constraints) (binding : List Slot) :
    (c.advance g binding).length ≤ 1 := by
  rcases getElem?_of_mem hM with ⟨i, hPat⟩
  rcases hCompiled.getElem?_pattern hPat with ⟨rule, -, hUse, hDesc⟩
  refine hS.length_advance_le (fun kind hKind => ?_) binding
  rcases hDesc.kinds c hC kind hKind with ⟨n, hOp, rfl⟩
  rcases Graph.mem_opIds_iff.mp hOp with ⟨node, hN, rfl⟩
  rw [hUse.pattern.sound.kindOf?_id hN]
  exact hUse.isPattern.gates node hN

theorem Compiled.ids_eq (hCompiled : rs.Compiled) (hS : g.Sound) {m m' : Match}
    (hL : m ∈ (rs.anchors g none).flatMap (rs.matchesOf g))
    (hR : m' ∈ (rs.anchors g none).flatMap (rs.matchesOf g)) (hRule : m.rule = m'.rule)
    (hRoot : m.root.toNat = m'.root.toNat) : m.nodes = m'.nodes := by
  have hNumber : ∀ {anchor}, anchor ∈ rs.anchors g none → .number anchor.toNat = anchor := by
    intro anchor hM
    rcases mem_map.mp (mem_filter.mp hM).1 with ⟨n, -, rfl⟩
    rfl
  rcases mem_flatMap.mp hL with ⟨anchor, hAnchor, hThere⟩
  rcases mem_flatMap.mp hR with ⟨anchor', hAnchor', hThere'⟩
  rcases hCompiled.finds_of_mem hS hThere with ⟨rfl, hBinding, -⟩
  rcases hCompiled.finds_of_mem hS hThere' with ⟨rfl, hBinding', -⟩
  have hSame : m.root = m'.root := by rw [← hNumber hAnchor, hRoot, hNumber hAnchor']
  rcases hCompiled.mem_bindingsAt_iff.mp hBinding with ⟨p, hPat, hWalk⟩
  rcases hCompiled.mem_bindingsAt_iff.mp hBinding' with ⟨p', hPat', hWalk'⟩
  obtain rfl : p = p' := eq_of_some (hRule ▸ hPat) hPat'
  have hOne := length_bindingsAlong_le (fun c hC =>
    hCompiled.length_advance_le hS (mem_of_getElem? hPat) hC) [m.root]
  rw [← hSame] at hWalk'
  generalize bindingsAlong g [m.root] p.constraints = found at hOne hWalk hWalk'
  rcases found with _ | ⟨b, _ | ⟨c, rest⟩⟩
  · exact nomatch hWalk
  · exact (mem_singleton.mp hWalk).trans (mem_singleton.mp hWalk').symm
  · exact absurd hOne (by simp)

end RuleSet

/-
  No input of a pattern carries a control value, and no wire
  between two of its operations does.  So every constraint
  leaves at most one way on, and a search finds at most one
  match of each rule at each anchor.
-/
theorem findMatches_never_branches
    [Scalar K]
    [Scalar.Ordered K]
    {rules : List (Rule K)}
    (hRules : ∀ rule ∈ rules, rule.Reachable)
    {rs : RuleSet K}
    (hCompile : RuleSet.compile rules = .ok rs)
    (hReach : g.Reachable)
    (hAcyclic : g.Acyclic)
    (hCounts : Scalar.Counts K g.nextId) :
    (∀ rule ∈ rules, .bool ∉ rule.pattern.inputs ∧ ∀ w ∈ rule.pattern.wires,
      w.src.node ∈ rule.pattern.opIds → w.dst.node ∈ rule.pattern.opIds →
        rule.pattern.outType? w.src.place ≠ some .bool) ∧
    (∀ p ∈ rs.patterns, ∀ c ∈ p.constraints, ∀ binding, (c.advance g binding).length ≤ 1) ∧
    ∃ ms g', Yields (rs.findMatches none) g ms g' ∧
      ms.Pairwise (fun m m' => ¬ (m.rule = m'.rule ∧ m.root.toNat = m'.root.toNat)) := by
  rcases RuleSet.compiled_of_reachable hRules hCompile with ⟨rfl, hCompiled⟩
  have hSearch := hReach.searchable hAcyclic hCounts
  refine ⟨fun rule hMem => ?_, fun p hMem c hC =>
    hCompiled.length_advance_le hSearch.sound hMem hC, ?_⟩
  · rcases getElem?_of_mem hMem with ⟨i, hRule⟩
    rcases hCompiled.getElem? hRule with ⟨-, -, hUsable, -⟩
    have hSound := hUsable.pattern.sound
    exact ⟨hUsable.isPattern.bool_notMem_inputs hSound,
      fun w hWire _ hOp => hUsable.isPattern.outType?_ne_bool hSound hWire hOp⟩
  · rcases hCompiled.yields_findMatches hSearch none with ⟨g', hFound, -, -⟩
    refine ⟨_, g', hFound, (hCompiled.flatMap_matchesOf_pairwise hSearch.sound
      (RuleSet.anchors_pairwise rs g)).imp_of_mem ?_⟩
    rintro m m' hLeft hRight hLess ⟨hRule, hRoot⟩
    have hNodes := hCompiled.ids_eq hSearch.sound hLeft hRight hRule hRoot
    rw [RuleSet.searchKey, RuleSet.searchKey, hRule, hRoot, Match.ids, Match.ids, hNodes] at hLess
    exact lt_irrefl _ hLess

theorem findMatches_never_branches_inversions :
    ∃ (rules : List (Rule ℚ)) (rs : RuleSet ℚ) (g : Graph ℚ),
      Identities.standard true = .ok rules ∧ RuleSet.compile rules = .ok rs ∧
      Graph.ofCircuit (Identities.circuit 1 [(.x, [0]), (.x, [0])]) = .ok g ∧ g.Acyclic ∧
      (∀ p ∈ rs.patterns, ∀ c ∈ p.constraints, ∀ binding, (c.advance g binding).length ≤ 1) ∧
      ∃ ms g', Yields (rs.findMatches none) g ms g' ∧
        ms.Pairwise (fun m m' => ¬ (m.rule = m'.rule ∧ m.root.toNat = m'.root.toNat)) := by
  rcases Identities.exists_standard_inversions with ⟨rules, rs, g, hRules, hCompile, hGraph, hValid⟩
  have hReach := Graph.reachable_of_ofCircuit hGraph
  have hAcyclic := (hReach.intact.validate_ok_iff.mp hValid).acyclic
  exact ⟨rules, rs, g, hRules, hCompile, hGraph, hAcyclic,
    (findMatches_never_branches (Identities.reachable_of_standard hRules) hCompile hReach hAcyclic
      (Scalar.counts_rational _)).2⟩

end CircuitGraph
