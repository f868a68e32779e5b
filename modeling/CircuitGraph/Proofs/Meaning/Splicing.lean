import CircuitGraph.Proofs.Meaning.Equivalence
import CircuitGraph.Proofs.Substitution.Splicing

/-
  What a graph computes after a replacement.

  A rule is valid under an interpretation if its pattern, with
  whatever parameters match, computes what its replacement
  computes.
-/

---- Other Parameters ----

namespace CircuitGraph

open List CircuitGraph.Graph

variable {n : Nat}

namespace Graph

variable {K : Type}

def withParams (g : Graph K) (params : Nat → List Param) : Graph K :=
  { g with ops := g.ops.map (fun node => { node with params := params node.id }) }

variable {g : Graph K}

theorem op?_withParams (params : Nat → List Param) (n : Nat) : (g.withParams params).op? n =
      (g.op? n).map (fun node => { node with params := params node.id }) := by
  unfold op? withParams
  rw [find?_map]
  rfl

@[simp] theorem signatureOf_withParams (params : Nat → List Param) (n : Nat) :
    (g.withParams params).signatureOf n = g.signatureOf n := by
  unfold signatureOf signatureOf?
  rw [op?_withParams, Option.map_map]
  rfl

/- A level stays sound if every operation gets as many parameters as before. -/
theorem Sound.withParams (hS : g.Sound) {params : Nat → List Param}
    (hLen : ∀ node ∈ g.ops, (params node.id).length = node.params.length) :
    (g.withParams params).Sound where
  nodes := by
    intro node hM
    rcases mem_map.mp hM with ⟨old, hOld, rfl⟩
    have hN := hS.nodes old hOld
    exact ⟨hN.inner, (hLen old hOld).trans hN.params, hN.body, hN.owned⟩
  unique := by
    have hIds : (g.withParams params).ops.map Node.id = g.ops.map Node.id := by
      simp [Graph.withParams, Function.comp_def]
    rw [hIds]
    exact hS.unique
  operation := by
    intro node hM
    rcases mem_map.mp hM with ⟨old, hOld, rfl⟩
    exact hS.operation old hOld
  issued := by
    intro node hM
    rcases mem_map.mp hM with ⟨old, hOld, rfl⟩
    exact hS.issued old hOld
  started := hS.started
  typed := by
    intro w hM
    rcases hS.typed w hM with ⟨t, hOut, hIn⟩
    exact ⟨t, by rwa [outType?, signatureOf_withParams], by rwa [inType?, signatureOf_withParams]⟩
  single := hS.single
  linear := by
    intro v hL w hR hSrc hType
    rw [outType?, signatureOf_withParams] at hType
    exact hS.linear v hL w hR hSrc hType

theorem inputValues_withParams {V : Type} (params : Nat → List Param) (env : Nat → List V)
    (n : Nat) : (g.withParams params).inputValues env n = g.inputValues env n := by
  unfold inputValues
  rw [signatureOf_withParams]
  rfl

end Graph

theorem length_of_paramsMatch {ps qs : List Float} (hMatch : paramsMatch ps qs = true) :
    qs.length = ps.length := by
  induction ps generalizing qs with
  | nil =>
    cases qs with
    | nil => rfl
    | cons q qs => simp [paramsMatch] at hMatch
  | cons p ps ih =>
    cases qs with
    | nil => simp [paramsMatch] at hMatch
    | cons q qs =>
      rw [paramsMatch, Bool.and_eq_true] at hMatch
      rw [length_cons, length_cons, ih hMatch.2]

---- Valid Rules ----

variable {K V : Type}

def Graph.Accepts (pattern : Graph K) (params : Nat → List Param) : Prop :=
  ∀ n ∈ pattern.opIds,
    paramsMatch (Param.values (pattern.paramsOf n)) (Param.values (params n)) = true

def Rule.Valid (I : Interpretation V) (rule : Rule K) : Prop :=
  ∀ params, rule.pattern.Accepts params → ∀ xs, I.Typed rule.pattern.inputs xs →
    (rule.pattern.withParams params).meaning I xs = rule.replacement.meaning I xs

---- Solutions of the Pattern ----

namespace Splicing

variable {I : Interpretation V} {s : Splicing K}

def inputsFrom (s : Splicing K) (env : Nat → List V) : List V :=
  (List.range s.rule.pattern.inputs.length).filterMap (fun i =>
    (env (s.source i).1)[(s.source i).2]?)

def patternValues (s : Splicing K) (env : Nat → List V) (n : Nat) : List V :=
  if n = inputId then s.inputsFrom env else env (s.image n)

def foundParams (s : Splicing K) (n : Nat) : List Param :=
  s.host.paramsOf (s.image n)

theorem accepts_foundParams : s.rule.pattern.Accepts s.foundParams :=
  fun n hM => s.occurs.params n hM

theorem patternValues_op (env : Nat → List V) (hM : n ∈ s.rule.pattern.opIds) :
    s.patternValues env n = env (s.image n) := by
  rw [patternValues, if_neg (s.usable.pattern.sound.ne_boundary hM).1]

section

variable
  {xs : List V}
  {env : Nat → List V}
  (hI : s.host.Intact)
  (hF : s.host.WellFormed)
  (hTyped : I.Typed s.host.inputs xs)
  (hSol : s.host.Solves I xs env)

include hI hF hTyped hSol

theorem exists_value {a : Nat × Nat} {t : WireType} (hType : s.host.outType? a = some t) :
    ∃ v, (env a.1)[a.2]? = some v ∧ I.carries t v := by
  have hM : a.1 = inputId ∨ a.1 ∈ s.host.opIds := by
    rcases Graph.mem_nodeIds_iff.mp (mem_nodeIds_of_outType? hType) with hIn | hOut | hOp
    · exact .inl hIn
    · simp [Graph.outType?, hOut] at hType
    · exact .inr hOp
  exact (s.sound.solves_typed hF (fun _ hN _ hB _ hYs =>
      (hI.body hN hB).meaning_typed (hF.body hN hB) hYs)
    hTyped hSol hM).getElem? hType

theorem isSome_source {i : Nat} (hLt : i < s.rule.pattern.inputs.length) :
    ((env (s.source i).1)[(s.source i).2]?).isSome := by
  have hType := (source_spec (s := s) (getElem?_eq_getElem hLt)).2
  rcases exists_value hI hF hTyped hSol hType with ⟨v, hValue, -⟩
  simp [hValue]

theorem getElem?_inputsFrom {i : Nat} (hLt : i < s.rule.pattern.inputs.length) :
    (s.inputsFrom env)[i]? = (env (s.source i).1)[(s.source i).2]? :=
  getElem?_filterMap_range (fun _ hLt => isSome_source hI hF hTyped hSol hLt) hLt

theorem typed_inputsFrom : I.Typed s.rule.pattern.inputs (s.inputsFrom env) := by
  refine Interpretation.typed_iff.mpr ⟨length_filterMap_range
    (fun _ hLt => isSome_source hI hF hTyped hSol hLt), fun i t hType => ?_⟩
  rw [getElem?_inputsFrom hI hF hTyped hSol (lt_of_getElem? hType)]
  exact exists_value hI hF hTyped hSol (source_spec hType).2

theorem inputValues_image (hMem : n ∈ s.rule.pattern.opIds) :
    s.rule.pattern.inputValues (s.patternValues env) n = s.host.inputValues env (s.image n) := by
  have hPat := s.usable.pattern.sound
  refine inputValues_ext (congrArg Signature.inputs (signatureOf_image hMem).symm) (fun i hLt => ?_)
  rcases hF.complete.fed (s.image n, i) _ (getElem?_eq_getElem hLt) with ⟨a, hW⟩
  rw [s.sound.bind_valueAt hW]
  rcases wired_image_cases hMem hW with ⟨k, hInput, rfl⟩ | ⟨m, hM, k, hIn, rfl⟩
  · rw [hPat.bind_valueAt hInput]
    rcases hPat.wired_types hInput with ⟨t, hType, -⟩
    rw [Graph.outType?, signatureOf_inputId] at hType
    rw [patternValues, if_pos rfl, getElem?_inputsFrom hI hF hTyped hSol (lt_of_getElem? hType)]
  · rw [hPat.bind_valueAt hIn, patternValues_op env hM]

theorem solves_pattern :
    (s.rule.pattern.withParams s.foundParams).Solves I (s.inputsFrom env) (s.patternValues env) := by
  refine ⟨by rw [patternValues, if_pos rfl], fun node hN => ?_⟩
  rcases mem_map.mp hN with ⟨old, hOld, rfl⟩
  have hM : old.id ∈ s.rule.pattern.opIds := Graph.mem_opIds_of_mem hOld
  rcases s.usable.pattern.sound.exists_fitting s.usable.isPattern hM (s.occurs.kind _ hM) with
    ⟨node, hN', image, hImage, hId, hImageId, hKind, hGate⟩
  obtain rfl := eq_of_key_eq s.usable.pattern.sound.unique hN' hOld hId
  have hParams : s.foundParams node.id = image.params := by
    rw [foundParams, ← hImageId, s.sound.paramsOf_id hImage]
  rw [inputValues_withParams, patternValues_op env hM,
    inputValues_image hI hF hTyped hSol hM, ← hImageId, hSol.nodes image hImage,
    Node.meaning_gate (hKind ▸ hGate), hKind, ← hParams]
  have hOther : ({ node with params := s.foundParams node.id } : Node (Graph K)).kind.isContainer =
    false := hGate
  exact (congrFun (Node.meaning_gate hOther _) _).symm

theorem getElem?_meaning_replacement (hValid : s.rule.Valid I) {q : Nat × Nat} {j : Nat}
    (hOutp : s.rule.pattern.Wired q (outputId, j)) :
    (s.rule.replacement.meaning I (s.inputsFrom env))[j]? = (env (s.image q.1))[q.2]? := by
  have hPat := s.usable.pattern.sound
  have hInputs := typed_inputsFrom hI hF hTyped hSol
  have hSolution := solves_pattern hI hF hTyped hSol
  have hS : (s.rule.pattern.withParams s.foundParams).Sound := by
    refine hPat.withParams (fun node hN => ?_)
    have hMatch := length_of_paramsMatch (s.occurs.params node.id (Graph.mem_opIds_of_mem hN))
    rwa [hPat.paramsOf_id hN, Param.values, Param.values, length_map, length_map] at hMatch
  rw [← hValid s.foundParams accepts_foundParams _ hInputs,
    hS.meaning_eq s.usable.patternFormed.acyclic hSolution, inputValues_withParams]
  have hSome : ∀ i < (s.rule.pattern.signatureOf outputId).inputs.length,
      ((s.rule.pattern.source? outputId i).bind (Graph.valueAt (s.patternValues env))).isSome := by
    intro i hLt
    rw [signatureOf_outputId] at hLt
    rcases exists_exit hLt with ⟨n, hM, k, hExit⟩
    rcases hPat.wired_types hExit with ⟨t, hType, -⟩
    rw [← outType?_image hM] at hType
    rcases exists_value hI hF hTyped hSol hType with ⟨v, hValue, -⟩
    rw [hPat.bind_valueAt hExit, patternValues_op env hM, hValue]
    rfl
  rcases hPat.wired_types hOutp with ⟨t, -, hType⟩
  rw [Graph.inputValues, getElem?_filterMap_range hSome (lt_of_getElem? hType),
    hPat.bind_valueAt hOutp, patternValues_op env (mem_of_output hOutp)]

end

---- Solutions of the Result ----

def resultValues (s : Splicing K) (env inner : Nat → List V) (n : Nat) : List V :=
  match s.rule.replacement.opIds.find? (fun m => s.fresh m == n) with
  | some m => inner m
  | none => env n

theorem resultValues_fresh (env inner : Nat → List V) {m : Nat}
    (hM : m ∈ s.rule.replacement.opIds) : s.resultValues env inner (s.fresh m) = inner m := by
  unfold resultValues
  cases hFnd : s.rule.replacement.opIds.find? (fun k => s.fresh k == s.fresh m) with
  | none => simpa using find?_eq_none.mp hFnd m hM
  | some k =>
    have hEq : s.fresh k = s.fresh m := by simpa using find?_some hFnd
    rw [s.injective k (mem_of_find?_eq_some hFnd) m hM hEq]

theorem resultValues_host (env inner : Nat → List V) (hM : n ∈ s.host.nodeIds) :
    s.resultValues env inner n = env n := by
  unfold resultValues
  cases hFnd : s.rule.replacement.opIds.find? (fun k => s.fresh k == n) with
  | none => rfl
  | some k =>
    have hEq : s.fresh k = n := by simpa using find?_some hFnd
    exact absurd (hEq ▸ hM) (fresh_notMem (mem_of_find?_eq_some hFnd))

theorem meaning_copyOf {node : Node (Graph K)} (hN : node ∈ s.rule.replacement.ops) {xs : List V}
    (hTyped : I.Typed node.signature.inputs xs) :
    (s.copyOf node).meaning I ((s.copyOf node).body.map (Graph.meaning I)) xs =
      node.meaning I (node.body.map (Graph.meaning I)) xs := by
  have hI := s.usable.replacement
  have hF := s.usable.replacementFormed
  have hMir : Node.Mirrors (fun b b' => b' = b.copy) node
      { node with body := node.body.map Graph.copy } :=
    ⟨rfl, rfl, rfl, rfl, optionRel_map (fun b _ => rfl)⟩
  have hSame := hMir.meaning (I := I) related_copy_signature
    (fun b b' hB hCopy => hCopy ▸ (hI.body hN hB).equivalent_copy (hF.body hN hB)) hTyped
  rw [← hSame]
  unfold copyOf Node.meaning Node.boundary?
  rw [hF.owned hN]

namespace Result

variable {g : Graph K}

section

variable
  {xs : List V}
  {env inner : Nat → List V}
  (hRes : s.Result g)
  (hI : s.host.Intact)
  (hF : s.host.WellFormed)
  (hValid : s.rule.Valid I)
  (hTyped : I.Typed s.host.inputs xs)
  (hSol : s.host.Solves I xs env)
  (hIn : s.rule.replacement.Solves I (s.inputsFrom env) inner)

include hI hF hTyped hSol hIn

theorem getElem?_start {a b : Nat × Nat} (hW : s.rule.replacement.Wired a b) :
    (s.resultValues env inner (s.start a).1)[(s.start a).2]? = (inner a.1)[a.2]? := by
  have hS := s.usable.replacement.sound
  rcases hS.edge_source hW.edge with hInput | hOp
  · rcases hS.wired_types hW with ⟨t, hType, -⟩
    rw [Graph.outType?, hInput, signatureOf_inputId, s.usable.inputs] at hType
    rw [start, if_pos hInput, hInput, hIn.inputs,
      resultValues_host _ _ (mem_nodeIds_of_outType? (source_spec hType).2),
      getElem?_inputsFrom hI hF hTyped hSol (lt_of_getElem? hType)]
  · rw [start, if_neg (hS.ne_boundary hOp).1, resultValues_fresh _ _ hOp]

include hRes

theorem inputValues_fresh {m : Nat} (hM : m ∈ s.rule.replacement.opIds) :
    g.inputValues (s.resultValues env inner) (s.fresh m) = s.rule.replacement.inputValues inner m := by
  have hS := s.usable.replacement.sound
  refine inputValues_ext (congrArg Signature.inputs (hRes.signatureOf_fresh hM)) (fun i hLt => ?_)
  rcases s.usable.replacementFormed.complete.fed (m, i) _ (getElem?_eq_getElem hLt) with
    ⟨a, hW⟩
  have hEnds : s.Ends (m, i) (s.fresh m, i) := by rw [Ends, if_neg (hS.ne_boundary hM).2]
  rw [hS.bind_valueAt hW,
    hRes.sound.bind_valueAt ((hRes.wired _ _).mpr (.inr ⟨a, _, hW, rfl, hEnds⟩)),
    getElem?_start hI hF hTyped hSol hIn hW]

include hValid

theorem inputValues_outside (hMem : n ∈ s.host.nodeIds) (hOut : ¬ s.Inside n) :
    g.inputValues (s.resultValues env inner) n = s.host.inputValues env n := by
  have hS := s.usable.replacement.sound
  refine inputValues_ext
    (congrArg Signature.inputs (hRes.signatureOf_outside hMem hOut)) (fun i hLt => ?_)
  rcases hF.complete.fed (n, i) _ (getElem?_eq_getElem hLt) with ⟨⟨u, k⟩, hW⟩
  rw [s.sound.bind_valueAt hW]
  by_cases hIns : s.Inside u
  · -- the output of the pattern behind this pin is one of the replacement
    rcases hIns with ⟨m, hM, rfl⟩
    rcases s.occurs.exists_output hM hW hOut with ⟨j, hOutp⟩
    rcases s.usable.pattern.sound.wired_types hOutp with ⟨t, -, hType⟩
    have hType' : s.rule.replacement.inType? (outputId, j) = some t := by
      rw [Graph.inType?, signatureOf_outputId] at hType ⊢
      rwa [s.usable.outputs]
    rcases s.usable.replacementFormed.complete.fed _ t hType' with ⟨a, hFed⟩
    have hEnds : s.Ends (outputId, j) (n, i) := by
      rw [Ends, if_pos rfl]
      exact ⟨(m, k), hOutp, hW, hOut⟩
    have hInputs := typed_inputsFrom hI hF hTyped hSol
    rw [← s.usable.inputs] at hInputs
    have hOuts := s.usable.replacement.solves_values s.usable.replacementFormed hInputs hIn outputId
    rw [hRes.sound.bind_valueAt ((hRes.wired _ _).mpr (.inr ⟨a, _, hFed, rfl, hEnds⟩)),
      getElem?_start hI hF hTyped hSol hIn hFed, ← hS.bind_valueAt hFed,
      ← hOuts.2 j (lt_of_getElem? hType'),
      ← hS.meaning_eq s.usable.replacementFormed.acyclic hIn,
      getElem?_meaning_replacement hI hF hTyped hSol hValid hOutp]
  · rw [hRes.sound.bind_valueAt ((hRes.wired _ _).mpr (.inl ⟨hW, hIns, hOut⟩)),
      resultValues_host _ _ (s.sound.edge_mem hW.edge).1]

theorem solves : g.Solves I xs (s.resultValues env inner) := by
  constructor
  · rw [resultValues_host _ _ (Graph.mem_nodeIds_iff.mpr (.inl rfl)), hSol.inputs]
  · intro node hN
    rcases (hRes.ops node).mp hN with ⟨hOld, hOut⟩ | ⟨r, hR, rfl⟩
    · have hM : node.id ∈ s.host.nodeIds :=
        Graph.mem_nodeIds_of_op (Graph.mem_opIds_of_mem hOld)
      rw [resultValues_host _ _ hM, hSol.nodes node hOld,
        inputValues_outside hRes hI hF hValid hTyped hSol hIn hM hOut]
    · have hM : r.id ∈ s.rule.replacement.opIds := Graph.mem_opIds_of_mem hR
      have hInputs := typed_inputsFrom hI hF hTyped hSol
      rw [← s.usable.inputs] at hInputs
      have hValues := (s.usable.replacement.solves_values s.usable.replacementFormed hInputs hIn
        r.id).1
      rw [s.usable.replacement.sound.signatureOf_id hR] at hValues
      change s.resultValues env inner (s.fresh r.id) =
        (s.copyOf r).meaning I _ (g.inputValues _ (s.fresh r.id))
      rw [resultValues_fresh _ _ hM, inputValues_fresh hRes hI hF hTyped hSol hIn hM,
        meaning_copyOf hR hValues, hIn.nodes r hR]

end

theorem equivalent (hRes : s.Result g) (hI : s.host.Intact) (hF : s.host.WellFormed)
    (hAcy : g.Acyclic) (hValid : s.rule.Valid I) : s.host.Equivalent I g := by
  constructor
  · unfold Graph.signature
    rw [hRes.inputs, hRes.outputs]
  · intro xs hTyped
    rcases s.sound.exists_solves hF.acyclic I xs with ⟨env, hSol⟩
    rcases s.usable.replacement.sound.exists_solves s.usable.replacementFormed.acyclic I
      (s.inputsFrom env) with ⟨inner, hIn⟩
    have hSolution := hRes.solves hI hF hValid hTyped hSol hIn
    have hOutp : outputId ∈ s.host.nodeIds := Graph.mem_nodeIds_iff.mpr (.inr (.inl rfl))
    rw [s.sound.meaning_eq hF.acyclic hSol, hRes.sound.meaning_eq hAcy hSolution,
      hRes.inputValues_outside hI hF hValid hTyped hSol hIn hOutp
        (not_inside_of_boundary (.inr rfl))]

end Result

end Splicing

end CircuitGraph
