import Mathlib
import CircuitGraph.Proofs.Circuits
import CircuitGraph.Proofs.History.Calls
import CircuitGraph.Proofs.Substitution.Commit

/-
  Commits that fail.

  A plan holds for the version of the graph that it was made
  for.

  Main declarations:
    * `Lasting.after`
    * `failed_commit_restores`
-/

---- Versions ----

namespace CircuitGraph

namespace Graph

variable {K : Type} [Scalar K] {P : Graph K → Prop} {g g' : Graph K}

theorem Sound.changes_after (hS : g.Sound) {calls : List (GraphCall K)} (hCalls : .copy ∉ calls) :
    Relation.ReflTransGen (Change (fun _ => True)) g (g.after calls) := by
  induction calls generalizing g with
  | nil => exact .refl
  | cons c calls ih =>
    have hCopy : c ≠ .copy := fun hEq => hCalls (hEq ▸ List.mem_cons_self)
    have hChg := GraphCall.keeps_changed hCopy g hS.changed
    exact hChg.changes.trans (ih hChg.sound (fun hM => hCalls (List.mem_cons_of_mem _ hM)))

end Graph

theorem Plan.Ready.of_steady {K : Type} {rs : RuleSet K} {p : Plan} {g g' : Graph K}
    (hReady : p.Ready rs g) {next : Nat} (hA : Graph.Alike { g with nextId := next } g') :
    p.Ready rs g' := by
  rcases hReady with ⟨rule, f, hRule, hUse, hOcc, hStands, hJoins⟩
  refine Plan.Ready.of_alike ⟨rule, f, hRule, hUse, ?_, hStands, ?_⟩ hA
  · exact ⟨hOcc.operation, hOcc.injective, hOcc.kind, hOcc.params, hOcc.wired,
      hOcc.fed, hOcc.closed⟩
  · exact ⟨hJoins.sources, hJoins.width, hJoins.count, hJoins.consumers⟩

---- Failed Commits ----

variable {K : Type} [Scalar K] {rs : RuleSet K} {p : Plan} {g g' : Graph K} {fault : Fault}

/- A commit that fails leaves operations and wires as they were, up to their order. -/
theorem RuleSet.Compiled.rearranged_of_fails (hC : rs.Compiled) (hS : g.Sound)
    (hReady : g.version = p.version → p.Ready rs g) (hFails : Fails (rs.commit p) g fault g') :
    g.Rearranged g' := by
  unfold commit refresh at hFails
  rcases fails_bind_iff.mp hFails with hRefresh | ⟨⟨fresh, moved⟩, g₁, hRefresh, hCarry⟩
  · -- the plan cannot be made anew, and ranks alone were asked for
    rcases fails_bind_iff.mp hRefresh with hNone | ⟨_, _, hGet, hPlanning⟩
    · exact absurd hNone not_fails_get
    obtain ⟨rfl, rfl⟩ := yields_get_iff.mp hGet
    rename_i g
    split at hPlanning
    · exact absurd hPlanning not_fails_pure
    · rcases fails_bind_iff.mp hPlanning with hPlan | ⟨_, _, -, hPure⟩
      · have hReads := Reads.plan rs p.found g g .refl
        rw [hPlan] at hReads
        exact .of_alike hReads.unchanged.1
      · exact absurd hPure not_fails_pure
  · have hPlanning := hRefresh.get_bind
    split at hPlanning
    · rename_i hVer
      obtain ⟨hEq, rfl⟩ := yields_pure_iff.mp hPlanning
      obtain rfl : fresh = p := congrArg Prod.fst hEq
      exact (hReady hVer).rearranged_of_fails hS hCarry
    · rcases yields_bind_iff.mp hPlanning with ⟨anew, _, hPlan, hPure⟩
      obtain ⟨hEq, rfl⟩ := yields_pure_iff.mp hPure
      obtain rfl : fresh = anew := congrArg Prod.fst hEq
      rcases hC.ready_of_plan hS hPlan with ⟨hU, -, -, hFresh⟩
      have hBack := hFresh.rearranged_of_fails (hS.of_alike hU.1) hCarry
      exact (Graph.Rearranged.of_alike hU.1).trans hBack

---- Ranks after Calls ----

namespace Graph

theorem Lasting.after {Q : Graph K → Prop} (hLasting : Lasting Q) (hHere : g.Sound ∧ Q g)
    (calls : List (GraphCall K)) : (g.after calls).Sound ∧ Q (g.after calls) := by
  induction calls generalizing g with
  | nil => exact hHere
  | cons c calls ih =>
    refine ih ⟨(hHere.1.call c).1, ?_⟩
    by_cases hCopy : c = .copy
    · subst hCopy
      have hPerm := hHere.1.mirrors_copy.ids_perm
      rw [outcome_copy]
      rw [hHere.1.copy_eq] at hPerm ⊢
      exact hLasting.level g _ _ _ hPerm hHere.2
    · have hChg := GraphCall.keeps_changed hCopy g hHere.1.changed
      exact (hLasting.changes hHere hChg.changes).2

/-
  Whether ranks are given as they should be: if the graph has
  no cycle, then all its nodes have ranks that ascend along
  wires, and otherwise the cycle is reported.
-/
def RankedRight (g : Graph K) : Prop :=
  (g.Acyclic → ∃ ranks g', Yields topologicalRanks g ranks g' ∧
    (∀ n, (valueOf? ranks n).isSome ↔ n ∈ g.nodeIds) ∧
    ∀ u v, g.Edge u v → ∃ a b, valueOf? ranks u = some a ∧ valueOf? ranks v = some b ∧ a < b) ∧
  (¬ g.Acyclic → ∃ stuck g', Fails topologicalRanks g (.structural (.cycle stuck)) g')

variable [Scalar.Ordered K]

theorem Ranking.acyclic {ranks : List (Nat × K)} (hRk : g.Ranking ranks [])
    (hS : g.Sound) : g.Acyclic := by
  intro n hLoop
  rcases (Relation.TransGen.head'_iff.mp hLoop) with ⟨m, hEdge, -⟩
  rcases hRk.covered n (hS.edge_mem hEdge).1 with hSome | hWaits
  · rcases Option.isSome_iff_exists.mp hSome with ⟨a, hRank⟩
    exact Scalar.Ordered.irrefl a (hRk.lt_of_path hS hLoop hRank hRank)
  · cases hWaits

theorem Sound.fails_topologicalRanks (hS : g.Sound) (hCyclic : ¬ g.Acyclic)
    (hCnt : Scalar.Counts K g.nextId) (hKept : g.Kept) :
    ∃ stuck g', Fails topologicalRanks g (.structural (.cycle stuck)) g' := by
  have hEnds := hS.ranked_topologicalRanks hCnt hKept
  rcases yields_or_fails topologicalRanks g with ⟨ranks, h, hY⟩ | ⟨fault, h, hFails⟩
  · exact absurd ((hEnds.1 ranks h hY).ranking.acyclic hS) hCyclic
  · rcases (hEnds.2 fault h hFails).2.2 with ⟨stuck, rfl⟩
    exact ⟨stuck, h, hFails⟩

theorem Sound.rankedRight (hS : g.Sound) (hCnt : Scalar.Counts K g.nextId) (hKept : g.Kept) :
    g.RankedRight := by
  refine ⟨fun hAcy => ?_, fun hCyclic => hS.fails_topologicalRanks hCyclic hCnt hKept⟩
  rcases hS.yields_topologicalRanks hAcy hCnt hKept with ⟨ranks, hY, hRank⟩
  have hSome : ∀ n ∈ g.nodeIds, (valueOf? ranks n).isSome := fun n hN =>
    (hRank.covered n hN).resolve_right List.not_mem_nil
  refine ⟨ranks, _, hY, fun n => ⟨hRank.known n, hSome n⟩, fun u v hEdge => ?_⟩
  rcases Option.isSome_iff_exists.mp (hSome u (hS.edge_mem hEdge).1) with ⟨a, hLow⟩
  rcases Option.isSome_iff_exists.mp (hSome v (hS.edge_mem hEdge).2) with ⟨b, hHigh⟩
  exact ⟨a, b, hLow, hHigh, hRank.ascends u v a b hEdge hLow hHigh⟩

end Graph

/-
  Let a plan be made for a sound graph, with ports that are not
  wired or with cycles, and let any calls on that graph follow.
  If the plan is then committed and the commit fails, for any
  reason, then the description of the graph is what it was, and
  ranks are given as they should be, whatever is called later.
-/
theorem failed_commit_restores
    {K : Type}
    [Scalar K]
    [Scalar.Ordered K]
    {rules : List (Rule K)}
    (hRules : ∀ rule ∈ rules, rule.pattern.Intact ∧ rule.replacement.Intact)
    {rs : RuleSet K}
    (hCompile : RuleSet.compile rules = .ok rs)
    {g₀ : Graph K}
    (hSound : g₀.Sound)
    (hKept : g₀.Kept)
    {m : Match}
    {p : Plan}
    {g₁ : Graph K}
    (hPlan : Yields (rs.plan m) g₀ p g₁)
    {calls : List (GraphCall K)}
    (hCalls : .copy ∉ calls)
    {fault : Fault}
    {g' : Graph K}
    (hFails : Fails (rs.commit p) (g₁.after calls) fault g') :
    g'.toDescription = (g₁.after calls).toDescription ∧
      ∀ later, Scalar.Counts K (g'.after later).nextId → (g'.after later).RankedRight := by
  have hCompiled := (RuleSet.compiled_of_compile hRules hCompile).2
  rcases hCompiled.ready_of_plan hSound hPlan with ⟨hUnchanged, -, hVersion, hReady⟩
  have hSound₁ := hSound.of_alike hUnchanged.1
  have hSteady := Graph.steady_of_changes (hSound₁.changes_after hCalls)
  constructor
  · refine (hCompiled.rearranged_of_fails (hSound₁.after calls).1 (fun hSame => ?_)
      hFails).toDescription_eq (hSound₁.after calls).1
    exact hReady.of_steady (hSteady.2 (hSame.trans hVersion))
  · intro later hCounts
    -- all that happened is one history of calls on the first graph
    have hHistory : g'.after later =
        g₀.after (.plan rs m :: calls ++ .commit rs p :: later) := by
      have hFirst : (outcome (GraphCall.plan rs m).run g₀).2 = g₁ :=
        congrArg Prod.snd (yields_map_iff.mpr ⟨p, hPlan, rfl⟩ : Yields (GraphCall.plan rs m).run g₀ none g₁)
      have hSecond : (outcome (GraphCall.commit rs p).run (g₁.after calls)).2 = g' :=
        congrArg Prod.snd (fails_map_iff.mpr hFails : Fails (GraphCall.commit rs p).run _ fault g')
      rw [List.cons_append, Graph.after, hFirst, Graph.after_append, Graph.after, hSecond]
    rw [hHistory] at hCounts ⊢
    have hLast := Graph.lasting_kept.after ⟨hSound, fun _ => hKept⟩
      (.plan rs m :: calls ++ .commit rs p :: later)
    exact hLast.1.rankedRight hCounts (hLast.2 hCounts)

def loopBehindSwap : Graph ℚ :=
  (Graph.empty [.qubit, .qubit] [.qubit, .qubit]).after
    [.addNode .swap [] none, .addNode .cx [] none,
      .connect ⟨.output, .whole 0, .whole 0⟩ ⟨.input, .whole 2, .whole 0⟩,
      .connect ⟨.output, .whole 0, .whole 1⟩ ⟨.input, .whole 2, .whole 1⟩,
      .connect ⟨.output, .whole 2, .whole 0⟩ ⟨.input, .whole 3, .whole 0⟩,
      .connect ⟨.output, .whole 2, .whole 1⟩ ⟨.input, .whole 1, .whole 1⟩,
      .connect ⟨.output, .whole 3, .whole 1⟩ ⟨.input, .whole 3, .whole 1⟩]

def swapPlan : Except Fault (Rule ℚ × RuleSet ℚ × Match × Plan) := do
  let rule ← Identities.swapElision
  let rs ← RuleSet.compile [rule]
  let ms ← (outcome (rs.findMatches none) loopBehindSwap).1
  let m ← ms.head?.elim (.error .absent) .ok
  let p ← (outcome (rs.plan m) loopBehindSwap).1
  return (rule, rs, m, p)

def isRollback {α : Type} : Except Fault α → Bool
  | .error (.unsound _ _ _) => true
  | _ => false

theorem exists_fails_of_isRollback {K α : Type} {e : Edit K α} {g : Graph K}
    (hBack : isRollback (outcome e g).1 = true) :
    ∃ rule root cause, Fails e g (.unsound rule root cause) (outcome e g).2 := by
  unfold isRollback at hBack
  split at hBack
  · rename_i rule root cause hOutcome
    exact ⟨rule, root, cause, Prod.ext hOutcome rfl⟩
  · cases hBack

/- The gate behind the swap lies on a cycle, so the swap is put back as it was. -/
theorem failed_commit_restores_swap :
    ∃ (rule : Rule ℚ) (rs : RuleSet ℚ) (m : Match) (p : Plan) (g₁ : Graph ℚ)
      (name : String) (root : Slot) (cause : StructuralFault) (g' : Graph ℚ),
      swapPlan = .ok (rule, rs, m, p) ∧ Yields (rs.plan m) loopBehindSwap p g₁ ∧
      Fails (rs.commit p) (g₁.after [.rank]) (.unsound name root cause) g' ∧
      g'.toDescription = (g₁.after [.rank]).toDescription ∧
      ∀ later, (g'.after later).RankedRight := by
  have hCheck : swapPlan.toOption.any (fun task => isRollback (outcome (task.2.1.commit task.2.2.2)
      ((outcome (task.2.1.plan task.2.2.1) loopBehindSwap).2.after [.rank])).1) = true := by cbv
  cases hTask : swapPlan with
  | error fault =>
    rw [hTask] at hCheck
    cases hCheck
  | ok task =>
    rw [hTask] at hCheck
    obtain ⟨rule, rs, m, p⟩ := task
    rcases exists_fails_of_isRollback hCheck with ⟨name, root, cause, hFails⟩
    have hParts := hTask
    rcases bind_eq_ok_iff.mp hParts with ⟨rule', hRule, hParts⟩
    rcases bind_eq_ok_iff.mp hParts with ⟨rs', hCompile, hParts⟩
    rcases bind_eq_ok_iff.mp hParts with ⟨ms, -, hParts⟩
    rcases bind_eq_ok_iff.mp hParts with ⟨m', -, hParts⟩
    rcases bind_eq_ok_iff.mp hParts with ⟨p', hPlan, hParts⟩
    obtain ⟨rfl, rfl, rfl, rfl⟩ : rule' = rule ∧ rs' = rs ∧ m' = m ∧ p' = p := by
      simpa using Except.ok.inj hParts
    have hYields : Yields (rs'.plan m') loopBehindSwap p' (outcome (rs'.plan m') loopBehindSwap).2 :=
      Prod.ext hPlan rfl
    have hRules : ∀ rule ∈ [rule'], rule.pattern.Intact ∧ rule.replacement.Intact := by
      intro rule hMem
      obtain rfl := List.mem_singleton.mp hMem
      have hReach := Identities.reachable_of_swapElision hRule
      exact ⟨hReach.1.intact, hReach.2.intact⟩
    have hSound : loopBehindSwap.Sound := ((Graph.sound_empty _ _).after _).1
    rcases failed_commit_restores hRules hCompile hSound rfl hYields (by simp) hFails with
      ⟨hSame, hRanks⟩
    exact ⟨rule', rs', m', p', _, name, root, cause, _, rfl, hYields, hFails, hSame,
      fun later => hRanks later (Scalar.counts_rational _)⟩

end CircuitGraph
