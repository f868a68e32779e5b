import CircuitGraph.Proofs.History.Commits
import CircuitGraph.Proofs.Match.Finding
import CircuitGraph.Proofs.Substitution.Indifference

/-
  Plans that are committed later.

  A plan is used as it is only while the graph has the version
  that it was made for.

  Main declarations:
    * `Steady`: the same graph, up to ids given out
    * `commit_agrees_with_apply`
-/

---- Live as Before ----

namespace CircuitGraph

open RuleSet

namespace Graph

variable {K : Type} {g g' : Graph K}

def Steady (g g' : Graph K) : Prop :=
  Alike { g with nextId := g'.nextId } g'

namespace Steady

theorem resembles (hSteady : g.Steady g') : g.Resembles g' := by
  rcases Alike.resembles hSteady with ⟨hWires, hIds, hKinds, hParams⟩
  exact ⟨hWires, hIds, hKinds, hParams⟩

theorem trans_alike {g'' : Graph K} (hSteady : g.Steady g') (hA : g'.Alike g'') : g.Steady g'' := by
  unfold Steady
  rw [hA.nextId]
  exact hSteady.trans hA

theorem alike_trans {g'' : Graph K} (hA : g.Alike g') (hSteady : g'.Steady g'') : g.Steady g'' :=
  have hRaised : Alike { g with nextId := g''.nextId } { g' with nextId := g''.nextId } :=
    .of_parts hA.inputs hA.outputs hA.ops hA.wires rfl
  hRaised.trans hSteady

theorem carriedType? (hSteady : g.Steady g') (pin : Pin) :
    g'.carriedType? pin = g.carriedType? pin :=
  hSteady.congr (fun g => Graph.carriedType? g pin) (fun _ => rfl)

theorem acyclic (hSteady : g.Steady g') (hAcy : g.Acyclic) : g'.Acyclic :=
  Alike.acyclic hSteady hAcy

end Steady

theorem Resembles.retraces (hSame : g.Resembles g') (nodes binding : List Slot)
    (cs : List Constraint) :
    Pattern.retraces g' nodes binding cs = Pattern.retraces g nodes binding cs := by
  induction cs generalizing binding with
  | nil => rfl
  | cons c cs ih =>
    cases c <;> simp only [Pattern.retraces, hSame.advance, hSame.fits, ih]

variable [Scalar K] [Scalar.Ordered K]

theorem Sound.yields_isConvex_again (hS : g.Sound) (hCnt : Scalar.Counts K g.nextId)
    (hKept : g.Kept) (hS' : g'.Sound) (hCnt' : Scalar.Counts K g'.nextId) (hKept' : g'.Kept)
    (hSteady : g.Steady g') {nodes : List Nat} (hNodes : ∀ n ∈ nodes, n ∈ g.nodeIds) {convex : Bool}
    {h : Graph K} (hY : Yields (isConvex nodes) g convex h) :
    ∃ h', Yields (isConvex nodes) g' convex h' := by
  by_cases hShort : nodes.length < 2
  · simp only [isConvex, if_pos hShort] at hY ⊢
    exact ⟨g', yields_pure_iff.mpr ⟨(yields_pure_iff.mp hY).1, rfl⟩⟩
  · -- ranks were found, so there is no cycle, and both answers are right
    have hAcy : g.Acyclic := by
      by_contra hCyclic
      rcases hS.fails_topologicalRanks hCyclic hCnt hKept with ⟨stuck, t, hFails⟩
      simp only [isConvex, if_neg hShort] at hY
      rcases yields_bind_iff.mp hY with ⟨ranks, _, hRanks, -⟩
      exact hRanks.not_fails hFails
    have hNodes' : ∀ n ∈ nodes, n ∈ g'.nodeIds := by
      rw [Alike.nodeIds hSteady]
      exact hNodes
    rcases hS.yields_isConvex hAcy hCnt hKept hNodes with ⟨a, t, hA, hMeans⟩
    rcases hS'.yields_isConvex (hSteady.acyclic hAcy) hCnt' hKept' hNodes' with
      ⟨b, t', hB, hMeans'⟩
    obtain ⟨rfl, -⟩ := hA.unique hY
    have hEq : b = a := by
      rw [Bool.eq_iff_iff, hMeans, hMeans', hSteady.resembles.convex_iff]
    exact ⟨t', hEq ▸ hB⟩

end Graph

namespace RuleSet

variable {K : Type} [Scalar K] {rs : RuleSet K} {g g' h : Graph K} {m : Match} {p : Plan}

variable [Scalar.Ordered K]

section

variable
  (hS : g.Sound)
  (hCnt : Scalar.Counts K g.nextId)
  (hKept : g.Kept)
  (hS' : g'.Sound)
  (hCnt' : Scalar.Counts K g'.nextId)
  (hKept' : g'.Kept)
  (hSteady : g.Steady g')

include hS hCnt hKept hS' hCnt' hKept' hSteady

theorem yields_isLive_again (hLive : Yields (rs.isLive m) g true h) :
    ∃ h', Yields (rs.isLive m) g' true h' := by
  have hSame := hSteady.resembles
  have hNodes : g'.hasNode = g.hasNode := Graph.Alike.congr hSteady Graph.hasNode (fun _ => rfl)
  rcases yields_isLive_true_iff.mp hLive with
    ⟨hThere, pattern, m', hPat, hTr, hBd, hMatch, hConv⟩
  have hIns : ∀ n ∈ m.ids, n ∈ g.nodeIds := fun n hM =>
    Graph.hasNode_iff.mp (List.all_eq_true.mp hThere n hM)
  rcases hS.yields_isConvex_again hCnt hKept hS' hCnt' hKept' hSteady hIns hConv with ⟨h', hConv'⟩
  refine ⟨h', yields_isLive_true_iff.mpr ⟨?_, pattern, m', hPat, ?_, ?_, hMatch, hConv'⟩⟩
  · rw [hNodes, hThere]
  · rw [hSame.retraces, hTr]
  · rw [hSame.boundary, hBd]

theorem yields_plan_again (hVer : g'.version = g.version) (hPlan : Yields (rs.plan m) g p h) :
    ∃ h', Yields (rs.plan m) g' p h' := by
  rcases yields_plan_iff.mp hPlan with ⟨hLive, rule, pins, sources, hRule, hPins, hSrcs, hTypes, rfl⟩
  rcases yields_isLive_again hS hCnt hKept hS' hCnt' hKept' hSteady hLive with ⟨h', hLive'⟩
  have hU := (Reads.isLive rs m).unchanged hLive
  have hU' := (Reads.isLive rs m).unchanged hLive'
  have hLater : h.Steady h' :=
    (hSteady.alike_trans hU.1.symm).trans_alike hU'.1
  have hSrc : boundarySource h' = boundarySource h := by
    funext pins
    cases pins <;> simp only [boundarySource, hLater.resembles.source?]
  have hType : sourceType h' = sourceType h := by
    funext source
    cases source <;> simp only [sourceType, hLater.carriedType?]
  have hConsumers : boundaryConsumers h' = boundaryConsumers h := by
    funext m pin
    simp only [boundaryConsumers, hLater.resembles.targets]
  refine ⟨h', yields_plan_iff.mpr ⟨hLive', rule, pins, sources, hRule, ?_, ?_, hTypes, ?_⟩⟩
  · rw [hSrc, hPins]
  · rw [hType, hSrcs]
  · rw [hConsumers, hU'.2.1, hVer, hU.2.1]

end

---- Commits and Applications ----

variable {K : Type} [Scalar K] {rs : RuleSet K} {g : Graph K}

theorem outcome_commit_of_current (hVer : g.version = p.version) :
    outcome (rs.commit p) g = outcome (rs.carryOut p) g := by
  have hRefresh : Yields (rs.refresh p) g (p, false) g := by
    refine .bind rfl ?_
    rw [if_pos hVer]
    exact rfl
  rw [commit, outcome_bind, hRefresh]

theorem outcome_commit_of_outdated (hVer : g.version ≠ p.version) :
    outcome (rs.commit p) g = outcome (rs.apply p.found) g := by
  rcases yields_or_fails (rs.plan p.found) g with ⟨fresh, h, hPlan⟩ | ⟨fault, h, hPlan⟩
  · have hRefresh : Yields (rs.refresh p) g (fresh, !fresh.same p) h := by
      refine .bind rfl ?_
      rw [if_neg hVer]
      exact .bind hPlan rfl
    have hCurrent : h.version = fresh.version := by
      rcases yields_plan_iff.mp hPlan with ⟨-, rule, pins, sources, -, -, -, -, rfl⟩
      rfl
    rw [commit, apply, outcome_bind, outcome_bind, hRefresh, hPlan]
    exact (outcome_commit_of_current hCurrent).symm
  · have hRefresh : Fails (rs.refresh p) g fault h := by
      refine Yields.fails_bind rfl ?_
      rw [if_neg hVer]
      exact hPlan.bind
    rw [commit, apply, outcome_bind, outcome_bind, hRefresh, hPlan]

end RuleSet

/-
  Let a plan be made for a sound graph, and let any calls on
  that graph follow, failed ones among them.  Then to commit the
  plan has the outcome of applying its match to the graph as it
  is at that moment: the same fault, or the same step, and the
  same operations and wires.
-/
theorem commit_agrees_with_apply
    {K : Type}
    [Scalar K]
    [Scalar.Ordered K]
    {rs : RuleSet K}
    {g₀ : Graph K}
    (hSound : g₀.Sound)
    (hKept : g₀.Kept)
    {m : Match}
    {p : Plan}
    {g₁ : Graph K}
    (hPlan : Yields (rs.plan m) g₀ p g₁)
    {calls : List (GraphCall K)}
    (hCalls : .copy ∉ calls)
    (hCounts : Scalar.Counts K (g₁.after calls).nextId) :
    (outcome (rs.commit p) (g₁.after calls)).1 = (outcome (rs.apply p.found) (g₁.after calls)).1 ∧
      (outcome (rs.commit p) (g₁.after calls)).2.Alike
        (outcome (rs.apply p.found) (g₁.after calls)).2 := by
  have hUnchanged := (Reads.plan rs m).unchanged hPlan
  have hSound₁ := hSound.of_alike hUnchanged.1
  have hSteady := Graph.steady_of_changes (hSound₁.changes_after hCalls)
  have hHistory : g₁.after calls = g₀.after (.plan rs m :: calls) := by
    have hFirst : (outcome (GraphCall.plan rs m).run g₀).2 = g₁ :=
      congrArg Prod.snd (yields_map_iff.mpr ⟨p, hPlan, rfl⟩ : Yields (GraphCall.plan rs m).run g₀ none g₁)
    rw [Graph.after, hFirst]
  have hLast := Graph.lasting_kept.after ⟨hSound, fun _ => hKept⟩ (.plan rs m :: calls)
  rw [← hHistory] at hLast
  by_cases hVersion : (g₁.after calls).version = p.version
  · have hFound : p.found = m ∧ p.version = g₁.version := by
      rcases yields_plan_iff.mp hPlan with ⟨-, rule, pins, sources, -, -, -, -, rfl⟩
      exact ⟨rfl, rfl⟩
    have hSame : (g₁.after calls).version = g₁.version := hVersion.trans hFound.2
    have hBefore : Scalar.Counts K g₀.nextId := by
      refine hCounts.mono (hUnchanged.1.nextId ▸ ?_)
      exact Graph.nextId_le_of_changes (hSound₁.changes_after hCalls)
    rcases yields_plan_again hSound hBefore hKept hLast.1 hCounts (hLast.2 hCounts)
      (Graph.Steady.alike_trans hUnchanged.1 (hSteady.2 hSame)) (hSame.trans hUnchanged.2.1) hPlan with
      ⟨h, hAgain⟩
    have hUnchanged' := (Reads.plan rs m).unchanged hAgain
    rw [outcome_commit_of_current hVersion, hFound.1, RuleSet.apply, outcome_bind, hAgain]
    dsimp only
    rw [outcome_commit_of_current (hUnchanged'.2.1.trans hVersion)]
    exact blind_carryOut rs p _ h hUnchanged'.1
  · rw [outcome_commit_of_outdated hVersion]
    exact ⟨rfl, .refl _⟩

def swappedLines : Graph ℚ :=
  (Graph.empty [.qubit, .qubit] [.qubit, .qubit]).after
    [.addNode .swap [] none,
      .connect ⟨.output, .whole 0, .whole 0⟩ ⟨.input, .whole 2, .whole 0⟩,
      .connect ⟨.output, .whole 0, .whole 1⟩ ⟨.input, .whole 2, .whole 1⟩,
      .connect ⟨.output, .whole 2, .whole 0⟩ ⟨.input, .whole 1, .whole 0⟩,
      .connect ⟨.output, .whole 2, .whole 1⟩ ⟨.input, .whole 1, .whole 1⟩]

def gateInFront : List (GraphCall ℚ) :=
  [.disconnect ⟨.output, .whole 0, .whole 0⟩ ⟨.input, .whole 2, .whole 0⟩,
    .addNode .x [] none, .rank,
    .connect ⟨.output, .whole 0, .whole 0⟩ ⟨.input, .whole 3, .whole 0⟩,
    .connect ⟨.output, .whole 3, .whole 0⟩ ⟨.input, .whole 2, .whole 0⟩]

def elisionPlan : Except Fault (RuleSet ℚ × Match × Plan) := do
  let rule ← Identities.swapElision
  let rs ← RuleSet.compile [rule]
  let ms ← (outcome (rs.findMatches none) swappedLines).1
  let m ← ms.head?.elim (.error .absent) .ok
  let p ← (outcome (rs.plan m) swappedLines).1
  return (rs, m, p)

/- The plan no longer fits when it is committed, and the swap vanishes behind the new gate. -/
theorem commit_agrees_with_apply_moved :
    ∃ (rs : RuleSet ℚ) (m : Match) (p : Plan) (g₁ : Graph ℚ),
      elisionPlan = .ok (rs, m, p) ∧ Yields (rs.plan m) swappedLines p g₁ ∧
      (g₁.after gateInFront).version ≠ p.version ∧
      (outcome (rs.commit p) (g₁.after gateInFront)).1.isOk = true ∧
      (outcome (rs.commit p) (g₁.after gateInFront)).1 =
        (outcome (rs.apply p.found) (g₁.after gateInFront)).1 ∧
      (outcome (rs.commit p) (g₁.after gateInFront)).2.Alike
        (outcome (rs.apply p.found) (g₁.after gateInFront)).2 := by
  have hCheck : elisionPlan.toOption.any (fun task =>
      let g := (outcome (task.1.plan task.2.1) swappedLines).2.after gateInFront
      g.version != task.2.2.version && (outcome (task.1.commit task.2.2) g).1.isOk) = true := by cbv
  cases hTask : elisionPlan with
  | error fault =>
    rw [hTask] at hCheck
    cases hCheck
  | ok task =>
    obtain ⟨rs, m, p⟩ := task
    simp only [hTask, Except.toOption, Option.any_some, Bool.and_eq_true, bne_iff_ne] at hCheck
    rcases hCheck with ⟨hVersion, hOk⟩
    have hParts := hTask
    rcases bind_eq_ok_iff.mp hParts with ⟨rule, -, hParts⟩
    rcases bind_eq_ok_iff.mp hParts with ⟨rs', -, hParts⟩
    rcases bind_eq_ok_iff.mp hParts with ⟨ms, -, hParts⟩
    rcases bind_eq_ok_iff.mp hParts with ⟨m', -, hParts⟩
    rcases bind_eq_ok_iff.mp hParts with ⟨p', hPlan, hParts⟩
    obtain ⟨rfl, rfl, rfl⟩ : rs' = rs ∧ m' = m ∧ p' = p := by
      simpa using Except.ok.inj hParts
    have hYields : Yields (rs'.plan m') swappedLines p' (outcome (rs'.plan m') swappedLines).2 :=
      Prod.ext hPlan rfl
    have hSound : swappedLines.Sound := ((Graph.sound_empty _ _).after _).1
    exact ⟨rs', m', p', _, rfl, hYields, hVersion, hOk,
      commit_agrees_with_apply hSound rfl hYields (by simp [gateInFront]) (Scalar.counts_rational _)⟩

end CircuitGraph
