import CircuitGraph.Proofs.Match.Trace
import Mathlib.Data.List.Pairwise

/-
  What is known of compiled rules.

  A graph that passes as a pattern has no containers, so its
  inputs carry no control values, and each of them feeds one
  pin of one operation.
-/

---- Patterns ----

namespace CircuitGraph

open List

variable {K : Type} {i : Nat}

/- A graph that can be searched for. -/
structure Graph.IsPattern (g : Graph K) : Prop where
  nonempty : g.ops ≠ []
  gates : ∀ node ∈ g.ops, node.kind.isContainer = false
  entry : ∀ i < g.inputs.length, ∃ q, g.targets inputId i = [q] ∧ q.node ∈ g.opIds
  exit : ∀ j < g.outputs.length, ∃ q, g.source? outputId j = some q ∧ q.node ∈ g.opIds
  distinct : ∀ j k q r, g.source? outputId j = some q → g.source? outputId k = some r →
    q.place = r.place → j = k

theorem Kind.bool_notMem_inputs {kind : Kind} {sig : Signature}
    (hSig : kind.signature? = some sig) : WireType.bool ∉ sig.inputs := by
  cases kind <;> simp [Kind.signature?, Kind.qubits] at hSig <;> subst hSig <;> simp

theorem firstRepeated?_eq_none {seen pins : List Pin}
    (hNone : Graph.firstRepeated? seen pins = none) :
    (∀ p ∈ pins, ∀ q ∈ seen, p.place ≠ q.place) ∧ (pins.map Pin.place).Nodup := by
  induction pins generalizing seen with
  | nil => simp
  | cons p ps ih =>
    unfold Graph.firstRepeated? at hNone
    split at hNone
    · simp at hNone
    · rename_i hNew
      have hFresh : ∀ q ∈ seen, p.place ≠ q.place := by
        intro q hM hEq
        exact hNew (any_eq_true.mpr ⟨q, hM, by simp [Pin.same, hEq]⟩)
      rcases ih hNone with ⟨hLater, hNodup⟩
      constructor
      · intro r hM q hSeen
        rcases mem_cons.mp hM with rfl | hTail
        · exact hFresh q hSeen
        · exact hLater r hTail q (mem_cons_of_mem _ hSeen)
      · rw [map_cons, nodup_cons]
        refine ⟨fun hM => ?_, hNodup⟩
        rcases mem_map.mp hM with ⟨r, hTail, hEq⟩
        exact hLater r hTail p mem_cons_self hEq

namespace Graph

variable {g : Graph K}

theorem patternFault?_eq_none (hNone : g.patternFault? = none) :
    g.ops ≠ [] ∧ g.containerFault? = none ∧
      (∀ i < g.inputs.length, g.inputFault? i = none) ∧ firstRepeated? [] g.outputSources = none := by
  unfold patternFault? at hNone
  split at hNone
  · simp at hNone
  · rename_i hSome
    simp only [Option.orElse_eq_orElse, Option.orElse_eq_or, Option.or_eq_none_iff,
      Option.map_eq_none_iff, findSome?_eq_none_iff, mem_range] at hNone
    exact ⟨by simpa using hSome, hNone.1, hNone.2.1, hNone.2.2⟩

theorem Sound.gates_of_containerFault? (hS : g.Sound) (hNone : g.containerFault? = none)
    {node : Node (Graph K)} (hN : node ∈ g.ops) : node.kind.isContainer = false := by
  unfold containerFault? at hNone
  rw [findSome?_eq_none_iff] at hNone
  have hCheck := hNone node.id (mem_opIds_of_mem hN)
  simp only [hS.kindOf?_id hN] at hCheck
  split at hCheck
  · simp at hCheck
  · rename_i hGate
    simpa using hGate

theorem inputFault?_eq_none (hNone : g.inputFault? i = none) :
    g.targets inputId i ≠ [] ∧ ∀ q ∈ g.targets inputId i, q.node ≠ outputId := by
  unfold inputFault? at hNone
  split at hNone
  · simp at hNone
  · rename_i pins hSome
    refine ⟨hSome, fun q hM hOut => ?_⟩
    split at hNone
    · simp at hNone
    · rename_i hAny
      exact hAny (any_eq_true.mpr ⟨q, hM, by simp [hOut]⟩)

theorem Sound.outType?_ne_bool (hS : g.Sound) {w : Wire} (hWire : w ∈ g.wires)
    {node : Node (Graph K)} (hN : node ∈ g.ops) (hId : node.id = w.dst.node)
    (hGate : node.kind.isContainer = false) : g.outType? w.src.place ≠ some .bool := by
  rcases hS.typed w hWire with ⟨t, hOut, hIn⟩
  rcases Kind.exists_signature (hS.nodes node hN).inner hGate with ⟨sig, hSig⟩
  have hGet : (g.signatureOf w.dst.node).inputs[w.dst.index]? = some t := hIn
  rw [← hId, hS.signatureOf_id hN, Node.signature_gate hGate, hSig] at hGet
  rw [hOut]
  intro hBool
  exact Kind.bool_notMem_inputs hSig (Option.some.inj hBool ▸ mem_of_getElem? hGet)

section

variable (hS : g.Sound) (hGates : ∀ node ∈ g.ops, node.kind.isContainer = false)
  (hInputs : ∀ i < g.inputs.length, g.inputFault? i = none)

include hS hGates hInputs

theorem Sound.linear_target (hLt : i < g.inputs.length) {q : Pin} (hM : q ∈ g.targets inputId i) :
    q.node ∈ g.opIds ∧ g.outType? (inputId, i) ≠ some .bool := by
  rcases mem_targets_iff.mp hM with ⟨w, hWire, hSrc, rfl⟩
  have hEdge : g.Edge w.src.node w.dst.node := ⟨w, hWire, rfl, rfl⟩
  have hOp : w.dst.node ∈ g.opIds :=
    (hS.edge_target hEdge).resolve_left ((inputFault?_eq_none (hInputs i hLt)).2 _ hM)
  refine ⟨hOp, ?_⟩
  rcases mem_opIds_iff.mp hOp with ⟨node, hN, hId⟩
  exact hSrc ▸ hS.outType?_ne_bool hWire hN hId (hGates node hN)

theorem Sound.exists_entry (hLt : i < g.inputs.length) :
    ∃ q, g.targets inputId i = [q] ∧ q.node ∈ g.opIds := by
  have hSome := (inputFault?_eq_none (hInputs i hLt)).1
  rcases exists_mem_of_ne_nil _ hSome with ⟨q, hM⟩
  rcases hS.linear_target hGates hInputs hLt hM with ⟨hOp, hLin⟩
  refine ⟨q, ?_, hOp⟩
  refine eq_singleton_of_nodup (hS.targets_nodup _ _).of_map hM (fun r hOther => ?_)
  rcases mem_targets_iff.mp hM with ⟨w, hWire, hSrc, rfl⟩
  rcases mem_targets_iff.mp hOther with ⟨v, hWire', hSrc', rfl⟩
  rw [hS.linear v hWire' w hWire (hSrc'.trans hSrc.symm) (hSrc' ▸ hLin)]

omit hGates in
theorem Sound.exists_exit (hF : g.WellFormed) {j : Nat} (hLt : j < g.outputs.length) :
    ∃ q, g.source? outputId j = some q ∧ q.node ∈ g.opIds := by
  have hType : g.inType? (outputId, j) = some g.outputs[j] := by
    simp [inType?, hLt]
  rcases hF.complete.fed _ _ hType with ⟨src, hW⟩
  rcases hS.wired_iff_source?.mp hW with ⟨q, hSrc, hPlace⟩
  refine ⟨q, hSrc, ?_⟩
  have hEdge : g.Edge q.node outputId := by
    have hN : q.node = src.1 := congrArg Prod.fst hPlace
    exact hN ▸ hW.edge
  rcases hS.edge_source hEdge with hIn | hOp
  · exfalso
    rcases hS.source?_iff.mp hSrc with ⟨w, hWire, rfl, hDst⟩
    rcases hS.typed w hWire with ⟨t, hOut, -⟩
    have hIndex : w.src.index < g.inputs.length := by
      have hGet : (g.signatureOf w.src.node).outputs[w.src.index]? = some t := hOut
      rw [hIn, signatureOf_inputId] at hGet
      exact lt_of_getElem? hGet
    have hM : w.dst ∈ g.targets inputId w.src.index :=
      mem_targets_iff.mpr ⟨w, hWire, by rw [← hIn]; rfl, rfl⟩
    exact (inputFault?_eq_none (hInputs _ hIndex)).2 _ hM (congrArg Prod.fst hDst)
  · exact hOp

end

theorem Sound.output_unique (hS : g.Sound) (hOuts : firstRepeated? [] g.outputSources = none)
    {j k : Nat} {q r : Pin} (hL : g.source? outputId j = some q)
    (hR : g.source? outputId k = some r) (hPlace : q.place = r.place) : j = k := by
  have hRange : ∀ {j q}, g.source? outputId j = some q → j ∈ List.range g.outputs.length := by
    intro j q hSrc
    rcases hS.source?_iff.mp hSrc with ⟨w, hWire, -, hDst⟩
    rcases hS.typed w hWire with ⟨t, -, hIn⟩
    rw [hDst] at hIn
    have hGet : (g.signatureOf outputId).inputs[j]? = some t := hIn
    rw [signatureOf_outputId] at hGet
    exact mem_range.mpr (lt_of_getElem? hGet)
  have hNodup := (firstRepeated?_eq_none hOuts).2
  rw [outputSources, map_filterMap, List.Nodup, pairwise_filterMap] at hNodup
  by_contra hNe
  have : Std.Symm (fun a b => ∀ x, (g.source? outputId a).map Pin.place = some x →
      ∀ y, (g.source? outputId b).map Pin.place = some y → x ≠ y) :=
    ⟨fun a b hBoth x hX y hY hEq => hBoth y hY x hX hEq.symm⟩
  have hDiffer := hNodup.forall (hRange hL) (hRange hR) hNe
  exact hDiffer q.place (by simp [hL]) r.place (by simp [hR]) hPlace

theorem Intact.isPattern (hI : g.Intact) (hF : g.WellFormed)
    (hNone : g.patternFault? = none) : g.IsPattern := by
  have hS := hI.sound
  rcases patternFault?_eq_none hNone with ⟨hSome, hContainers, hInputs, hOuts⟩
  have hGates : ∀ node ∈ g.ops, node.kind.isContainer = false := fun node hN =>
    hS.gates_of_containerFault? hContainers hN
  constructor
  · exact hSome
  · exact hGates
  · exact fun i hLt => hS.exists_entry hGates hInputs hLt
  · exact fun j hLt => hS.exists_exit hInputs hF hLt
  · exact fun j k q r hL hR hPlace => hS.output_unique hOuts hL hR hPlace

end Graph

---- Rules ----

/- A rule whose two sides are intact, well-formed and of one boundary, and can be applied. -/
structure Rule.Usable (rule : Rule K) : Prop where
  pattern : rule.pattern.Intact
  replacement : rule.replacement.Intact
  patternFormed : rule.pattern.WellFormed
  replacementFormed : rule.replacement.WellFormed
  signature : rule.pattern.signature = rule.replacement.signature
  isPattern : rule.pattern.IsPattern

/- Whether every rule of a set is usable and has its pattern. -/
structure RuleSet.Compiled (rs : RuleSet K) : Prop where
  patterns : List.Forall₂ (fun rule p => rule.Usable ∧ p.Describes rule.pattern) rs.rules rs.patterns
  ranks : rs.ranks = Ranking.ranks (rs.rules.map Rule.priority)
  trie : rs.trie = (RuleSet.buildTrie rs.ranks rs.patterns).1

namespace Rule

variable {rule : Rule K}

theorem Usable.inputs (hUse : rule.Usable) : rule.replacement.inputs = rule.pattern.inputs :=
  congrArg Signature.inputs hUse.signature.symm

theorem Usable.outputs (hUse : rule.Usable) : rule.replacement.outputs = rule.pattern.outputs :=
  congrArg Signature.outputs hUse.signature.symm

theorem checkSide_eq_ok_iff {label side : String} {g : Graph K} {u : Unit} :
    checkSide label side g = .ok u ↔ g.validate = .ok () := by
  unfold checkSide
  cases g.validate <;> simp

theorem usable_of_check (hPat : rule.pattern.Intact) (hRep : rule.replacement.Intact)
    (hCheck : rule.check = .ok ()) : rule.Usable := by
  unfold check at hCheck
  simp only [bind_eq_ok_iff, checkSide_eq_ok_iff] at hCheck
  rcases hCheck with ⟨_, hL, _, hR, hRest⟩
  have hF := hPat.validate_ok_iff.mp hL
  split at hRest
  · simp [throw, throwThe, MonadExceptOf.throw, bind, Except.bind] at hRest
  · rename_i hSig
    cases hFault : rule.pattern.patternFault? with
    | some fault =>
      simp [hFault, throw, throwThe, MonadExceptOf.throw] at hRest
    | none =>
      exact ⟨hPat, hRep, hF, hRep.validate_ok_iff.mp hR, not_not.mp hSig, hPat.isPattern hF hFault⟩

end Rule

namespace RuleSet

theorem compiled_of_compile {rules : List (Rule K)}
    (hI : ∀ rule ∈ rules, rule.pattern.Intact ∧ rule.replacement.Intact) {rs : RuleSet K}
    (hComp : compile rules = .ok rs) : rs.rules = rules ∧ rs.Compiled := by
  unfold compile at hComp
  rcases bind_eq_ok_iff.mp hComp with ⟨_, hChecks, hRest⟩
  rcases bind_eq_ok_iff.mp hRest with ⟨patterns, hPatterns, hRest⟩
  split at hRest
  · simp [throw, throwThe, MonadExceptOf.throw, bind, Except.bind] at hRest
  · obtain rfl := Except.ok.inj hRest
    refine ⟨rfl, ?_, rfl, rfl⟩
    have hUse : ∀ rule ∈ rules, rule.Usable := fun rule hM =>
      Rule.usable_of_check (hI rule hM).1 (hI rule hM).2 (forM_eq_ok_iff.mp hChecks rule hM)
    refine List.Forall₂.imp ?_ ((forall₂_and_left _ _).mpr ⟨hUse, mapM_eq_ok_iff.mp hPatterns⟩)
    rintro rule p ⟨hRule, hPat⟩
    exact ⟨hRule, hRule.pattern.sound.describes_ofGraph hRule.patternFormed.complete hPat⟩

namespace Compiled

variable {rs : RuleSet K}

theorem length (hC : rs.Compiled) : rs.rules.length = rs.patterns.length :=
  hC.patterns.length_eq

theorem getElem? (hC : rs.Compiled) {rule : Rule K} (hRule : rs.rules[i]? = some rule) :
    ∃ p, rs.patterns[i]? = some p ∧ rule.Usable ∧ p.Describes rule.pattern := by
  rcases List.getElem?_eq_some_iff.mp hRule with ⟨hLt, rfl⟩
  have hLt' := hC.length ▸ hLt
  exact ⟨rs.patterns[i], getElem?_eq_getElem hLt', hC.patterns.get hLt hLt'⟩

theorem usable (hC : rs.Compiled) {rule : Rule K} (hRule : rule ∈ rs.rules) : rule.Usable := by
  rcases getElem?_of_mem hRule with ⟨i, hAt⟩
  rcases hC.getElem? hAt with ⟨p, -, hUse, -⟩
  exact hUse

theorem getElem?_pattern (hC : rs.Compiled) {p : Pattern} (hPat : rs.patterns[i]? = some p) :
    ∃ rule, rs.rules[i]? = some rule ∧ rule.Usable ∧ p.Describes rule.pattern := by
  rcases List.getElem?_eq_some_iff.mp hPat with ⟨hLt, rfl⟩
  have hLt' := hC.length ▸ hLt
  exact ⟨rs.rules[i], getElem?_eq_getElem hLt', hC.patterns.get hLt' hLt⟩

end Compiled

end RuleSet

end CircuitGraph
