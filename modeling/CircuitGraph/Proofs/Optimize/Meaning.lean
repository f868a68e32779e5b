import CircuitGraph.Proofs.Meaning.Classical
import CircuitGraph.Proofs.Meaning.Splicing
import CircuitGraph.Proofs.Optimize.Safety

/-
  Optimisation preserves meaning.

  Every substitution by a valid rule leaves a graph that
  computes the same, and so does all else that a search does
  with graphs.

  Main declarations:
    * `Graph.Refines`: graphs that compute the same
    * `optimize_preserves_meaning`
-/

---- Refinement ----

namespace CircuitGraph

namespace Graph

variable {K V : Type}

/- Whether a graph is in order and computes the same as another one. -/
structure Refines (I : Interpretation V) (g g' : Graph K) : Prop where
  equivalent : g.Equivalent I g'
  intact : g'.Intact
  formed : g'.WellFormed

namespace Refines

variable {I : Interpretation V} {g g' body body' : Graph K} {path : List Nat}

theorem self (hI : g.Intact) (hF : g.WellFormed) : g.Refines I g :=
  ⟨.refl g, hI, hF⟩

theorem of_alike (hRefines : g.Refines I g') {g'' : Graph K} (hA : g'.Alike g'') :
    g.Refines I g'' :=
  ⟨hRefines.equivalent.trans hA.equivalent, hRefines.intact.of_alike hA,
    hRefines.formed.of_alike hA⟩

theorem copy (hRefines : g.Refines I g') : g.Refines I g'.copy :=
  ⟨hRefines.equivalent.trans (hRefines.intact.equivalent_copy hRefines.formed),
    hRefines.intact.copy, hRefines.intact.wellFormed_copy hRefines.formed⟩

theorem bodyAt? (hRefines : g.Refines I g') (hB : g'.bodyAt? path = some body) :
    body.Refines I body :=
  self (hRefines.intact.bodyAt? hB) (hRefines.formed.bodyAt? hB)

theorem replaceAt (hRefines : g.Refines I g') (hB : g'.bodyAt? path = some body)
    (hIn : body.Refines I body') : g.Refines I (g'.replaceAt path body') where
  equivalent := hRefines.equivalent.trans
    (hRefines.intact.equivalent_replaceAt hRefines.formed hB hIn.equivalent)
  intact := hRefines.intact.replaceAt hB hIn.equivalent.1 hIn.intact
  formed := hRefines.intact.wellFormed_replaceAt hRefines.formed hB hIn.equivalent.1 hIn.formed

theorem takeOver {other : Graph K} (hL : g.Refines I g') (hR : g.Refines I other) :
    g.Refines I (g'.takeOver other) := by
  have hMir := mirrors_takeOver (hR.equivalent.1.trans hL.equivalent.1.symm)
  have hEquivalent : other.Equivalent I (g'.takeOver other) := by
    refine hMir.equivalent related_eq_signature hR.intact hR.formed ?_
    rintro node - b _ - rfl
    exact .refl _
  refine ⟨hR.equivalent.trans hEquivalent, ?_, ?_⟩
  · refine hMir.intact related_eq_signature hR.intact ?_
    rintro node hN b _ hB rfl
    exact hR.intact.body hN hB
  · refine hMir.wellFormed related_eq_signature hR.intact.sound.unique hR.formed ?_
    rintro node hN b _ hB rfl
    exact hR.formed.body hN hB

theorem carryOut [Scalar K] {rs : RuleSet K} (hValid : ∀ rule ∈ rs.rules, rule.Valid I)
    (hRefines : g.Refines I g') {p : Plan} (hReady : p.Ready rs g') {step : Step} {g'' : Graph K}
    (hY : Yields (rs.carryOut p) g' step g'') : g.Refines I g'' := by
  rcases hReady.result_of_carryOut hRefines.intact.sound hRefines.formed.acyclic hY with
    ⟨s, rfl, hRule, hRes, hAcy, -⟩
  exact ⟨hRefines.equivalent.trans
      (hRes.equivalent hRefines.intact hRefines.formed hAcy (hValid s.rule hRule)),
    hRes.intact hRefines.intact, hRes.wellFormed hRefines.formed hAcy⟩

end Refines

end Graph

---- Searches ----

variable {K V : Type} [Scalar K]

def Conduct.preserving (I : Interpretation V) (t : Task K) (hC : t.rules.Compiled)
    (hValid : ∀ rule ∈ t.rules.rules, rule.Valid I) : Conduct t where
  Good a _ b := a.Refines I b
  Known _ := True
  Fit p g := p.Ready t.rules g
  Allowed _ := True
  body := Graph.Refines.bodyAt?
  replace hGood hB hIn _ := hGood.replaceAt hB hIn
  copy := Graph.Refines.copy
  takeOver := Graph.Refines.takeOver
  find among hGood := ⟨fun _ _ hY =>
    ⟨hGood.of_alike ((Reads.findMatches t.rules among).unchanged hY).1, fun _ _ => trivial⟩,
    fun _ _ _ => trivial⟩
  plan hGood _ := by
    refine ⟨fun p g' hY => ?_, fun fault g' hFails => ?_⟩
    · rcases hC.ready_of_plan hGood.intact.sound hY with
        ⟨hU, hFnd, hVer, hReady⟩
      exact ⟨hGood.of_alike hU.1, hFnd, hVer, hReady⟩
    · exact ⟨hGood.of_alike ((Reads.plan t.rules _).unchanged_of_fails hFails).1, .inr trivial⟩
  fit hReady hU := hReady.of_alike hU.1
  carryOut hGood hReady := ⟨fun _ _ hY =>
    ⟨hGood.carryOut hValid hReady hY, hReady.version_lt hGood.intact.sound
      hGood.formed.acyclic hY⟩, fun _ _ _ => trivial⟩
  cost _ _ := trivial
  depth _ _ := trivial
  fingerprint _ _ := trivial
  queue _ _ := trivial

/-
  Optimisation returns a graph that computes the same, if every
  rule is valid under the interpretation.
-/
theorem optimize_preserves_meaning
    (I : Interpretation V)
    {rules : List (Rule K)}
    (hRules : ∀ rule ∈ rules, rule.Reachable)
    {rs : RuleSet K}
    (hCompile : RuleSet.compile rules = .ok rs)
    (hValid : ∀ rule ∈ rules, rule.Valid I)
    {g : Graph K}
    (hReach : g.Reachable)
    (hFormed : g.validate = .ok ())
    (fuel : Nat)
    (clock : Nat → Float)
    (settings : Settings K)
    {events events' : List (Event K)}
    {o : Outcome K}
    (hDone : Yields (optimize fuel clock rs settings g) events o events') :
    g.Equivalent I o.graph := by
  have hIntact := hReach.intact
  have hWellFormed := hIntact.validate_ok_iff.mp hFormed
  rcases RuleSet.compiled_of_reachable hRules hCompile with ⟨rfl, hCompiled⟩
  have hStart : g.Refines I g.copy := (Graph.Refines.self hIntact hWellFormed).copy
  have hEnds : Ends (optimize fuel clock rs settings g) events (fun o _ => g.Refines I o.graph)
      (fun _ _ => True) := by
    refine ends_optimize (Q := fun _ result => g.Refines I result) (fun _ _ => trivial)
      (fun _ _ _ _ => trivial) (fun _ _ _ _ => trivial) ?_ (fun _ _ _ _ _ _ _ => trivial)
      (fun _ _ _ _ _ => trivial)
    intro cost gains _ _
    exact (Conduct.ends_runLevels (c := Conduct.preserving I _ hCompiled hValid)
      (r := Run.start g.copy) hStart fuel (Search.ladder_levelPaths hStart.intact _)).mono (fun _ _ h => h) (fun _ _ _ => trivial)
  exact (hEnds.1 o events' hDone).equivalent

---- Inversions ----

theorem Graph.Accepts.withParams_eq {K : Type} {pattern : Graph K} {params : Nat → List Param}
    (hAccepts : pattern.Accepts params) (hS : pattern.Sound)
    (hPlain : ∀ node ∈ pattern.ops, node.params = []) : pattern.withParams params = pattern := by
  have hOps : pattern.ops.map (fun node => { node with params := params node.id }) =
      pattern.ops := by
    refine (List.map_congr_left fun node hN => ?_).trans (List.map_id _)
    have hMatch := length_of_paramsMatch (hAccepts node.id (Graph.mem_opIds_of_mem hN))
    rw [hS.paramsOf_id hN, hPlain node hN] at hMatch
    have hNone : params node.id = [] := by simpa [Param.values] using hMatch
    simp [hNone, ← hPlain node hN]
  cases pattern
  exact congrArg (fun ops => Graph.mk _ _ ops _ _ _ _ _ _ _) hOps

theorem Identities.exists_inversions_vanish :
    ∃ (rule : Rule ℚ) (rs : RuleSet ℚ), squareVanishes .x = .ok rule ∧
      RuleSet.compile [rule] = .ok rs ∧ rule.Valid Interpretation.classical := by
  let run : Except Fault Bool := do
    let rule ← squareVanishes (K := ℚ) .x
    let _ ← RuleSet.compile [rule]
    return rule.pattern.ops.all (fun node => node.params.isEmpty) &&
      rule.pattern.inputs.length == 1 && [true, false].all (fun b =>
        rule.pattern.meaning .classical [b] == rule.replacement.meaning .classical [b])
  have hRun : run = .ok true := by
    have hTrue : (match run with | .ok b => b | .error _ => false) = true := by decide +kernel
    revert hTrue
    cases run with
    | ok b => exact congrArg Except.ok
    | error fault => exact fun hTrue => nomatch hTrue
  rcases bind_eq_ok_iff.mp hRun with ⟨rule, hRule, hRun⟩
  rcases bind_eq_ok_iff.mp hRun with ⟨rs, hComp, hRun⟩
  have hTests := Except.ok.inj hRun
  simp only [Bool.and_eq_true, List.all_eq_true, List.isEmpty_iff, beq_iff_eq] at hTests
  rcases hTests with ⟨⟨hPlain, hInputs⟩, hSame⟩
  refine ⟨rule, rs, hRule, hComp, fun params hAccepts xs hTyped => ?_⟩
  have hS := (Rule.reachable_of_ofCircuits hRule).1.intact.sound
  rw [hAccepts.withParams_eq hS hPlain]
  have hLen := (List.Forall₂.length_eq hTyped).symm.trans hInputs
  rcases List.length_eq_one_iff.mp hLen with ⟨b, rfl⟩
  exact hSame b (by cases b <;> simp)

/- Two inversions in a row are optimised by the rule that they cancel. -/
theorem optimize_preserves_meaning_inversions :
    ∃ (rule : Rule ℚ) (rs : RuleSet ℚ) (g : Graph ℚ) (n : Nat) (o : Outcome ℚ)
      (events : List (Event ℚ)),
      Identities.squareVanishes .x = .ok rule ∧ RuleSet.compile [rule] = .ok rs ∧
      Graph.ofCircuit (Identities.circuit 1 [(.x, [0]), (.x, [0])]) = .ok g ∧
      Yields (optimize n (fun _ => 0) rs ⟨.standard, .greedy, some 1, none, true, true, none, none,
        false, 0⟩ g) [] o events ∧
      g.Equivalent Interpretation.classical o.graph := by
  rcases Identities.exists_inversions_vanish with ⟨rule, rs, hRule, hCompile, hValid⟩
  rcases Identities.exists_standard_inversions with ⟨-, -, g, -, -, hGraph, hFormed⟩
  have hRules : ∀ r ∈ [rule], r.Reachable := by
    rintro r hMem
    obtain rfl := List.mem_singleton.mp hMem
    exact Rule.reachable_of_ofCircuits hRule
  have hReach := Graph.reachable_of_ofCircuit hGraph
  rcases RuleSet.compiled_of_reachable hRules hCompile with ⟨hSame, hCompiled⟩
  have hWork := Graph.Workable.of_reachable hReach (hReach.intact.validate_ok_iff.mp hFormed)
    (rs.roomy_rational g).levels
  let settings : Settings ℚ :=
    ⟨.standard, .greedy, some 1, none, true, true, none, none, false, 0⟩
  have hCost : settings.cost.resolve = .ok .gates := rfl
  rcases exists_optimized (rs.roomy_rational g).spares hCompiled (hSame ▸ hRules) hWork (fun _ => 0)
    hCost .gates (.inl ⟨1, rfl⟩) (.inl rfl) [] with ⟨n, o, events, -, hYields⟩
  have hDone := hYields n (Nat.le_refl n)
  exact ⟨rule, rs, g, n, o, events, hRule, hCompile, hGraph, hDone,
    optimize_preserves_meaning .classical hRules hCompile (by simpa using hValid) hReach hFormed n
      _ _ hDone⟩

end CircuitGraph
