import CircuitGraph.Proofs.History.Replanning
import CircuitGraph.Proofs.Match.Vicinity
import CircuitGraph.Proofs.Optimize.Safety
import CircuitGraph.Proofs.Substitution.Sequence

/-
  What commits leave as it was.

  Far from all that some commits have touched, patterns can be
  bound to the same nodes as before.

  Main declarations:
    * `Commits`: commits one after the other
    * `bindings_kept_far_from_commits`
-/

---- Commits ----

namespace CircuitGraph

namespace RuleSet

variable {K : Type} [Scalar K]

/-
  Whether plans for some matches are committed one after the
  other, and in between the graph is only read.  Plans are
  made for earlier versions of the graph or for this one.
-/
inductive Commits (rs : RuleSet K) (ms : List Match) : Graph K → List Step → Graph K → Prop where
  | done {b b' : Graph K} (read : b.Reranked b') :
      Commits rs ms b [] b'
  | step {b b₁ b₂ b' : Graph K} {p : Plan} {s : Step} {steps : List Step} (read : b.Reranked b₁)
      (known : p.found ∈ ms)
      (current : b₁.version = p.version → ∃ h, Yields (rs.plan p.found) b₁ p h)
      (commits : Yields (rs.commit p) b₁ s b₂) (rest : Commits rs ms b₂ steps b') :
      Commits rs ms b (s :: steps) b'

variable {rs : RuleSet K} {g g' : Graph K}

theorem Commits.nextId_le {ms : List Match} {steps : List Step}
    (hCommits : rs.Commits ms g steps g') (hS : g.Sound) : g.nextId ≤ g'.nextId := by
  induction hCommits with
  | done hRead => exact hRead.unchanged.1.nextId.ge
  | @step b b₁ b₂ b' p s steps hRead _ _ hCommit _ ih =>
    have hS₁ := hS.of_alike hRead.unchanged.1
    have hKeeps : Keeps (Graph.Changed (fun _ => True) b₁) (rs.commit p) :=
      keeps_commit (fun _ _ _ _ _ _ => trivial) p
    have hChg := hKeeps.of_yields hCommit ⟨hS₁, fun _ _ _ _ => trivial, .refl⟩
    have hLe : b₁.nextId ≤ b₂.nextId :=
      hChg.changes.recOn (Nat.le_refl _) (fun _ hChange hLe => hLe.trans
        (Graph.nextId_le_of_change hChange))
    exact hRead.unchanged.1.nextId.ge.trans (hLe.trans (ih hChg.sound))

variable [Scalar.Ordered K]

theorem Compiled.names_of_mem (hC : rs.Compiled) (hSea : g.Searchable) {ms : List Match}
    (hFnd : Yields (rs.findMatches none) g ms g') {m : Match} (hM : m ∈ ms) :
    ∃ rule f, rs.Names m rule f := by
  rcases hC.yields_findMatches hSea none with ⟨_, hFnd', -, -⟩
  obtain ⟨rfl, -⟩ := hFnd.unique hFnd'
  rcases (hC.lists hSea.sound).found m hM with ⟨rule, f, hFinds⟩
  exact ⟨rule, f, hFinds.toNames⟩

theorem Compiled.finds_of_apply (hC : rs.Compiled) (hSea : g.Searchable) {m : Match}
    {rule : Rule K} {f : Nat → Nat} (hNames : rs.Names m rule f) {step : Step}
    (hApply : Yields (rs.apply m) g step g') : rs.Finds g m rule f := by
  rcases yields_bind_iff.mp hApply with ⟨p, h, hPlan, -⟩
  rcases hC.plan_cases hSea hNames with ⟨_, -, -, ⟨hFinds, -⟩ | ⟨-, hStale⟩⟩
  · exact hFinds
  · exact absurd hStale hPlan.not_fails

theorem Compiled.carries_of_commit (hC : rs.Compiled) (hSea : g.Searchable) {p : Plan}
    {rule : Rule K} {f : Nat → Nat} (hNames : rs.Names p.found rule f)
    (hCurrent : g.version = p.version → ∃ h, Yields (rs.plan p.found) g p h) {step : Step}
    (hCommit : Yields (rs.commit p) g step g') :
    ∃ p' g₁, g.Reranked g₁ ∧ p'.found = p.found ∧ rs.Carries g₁ p' step g' := by
  by_cases hVer : g.version = p.version
  · rcases hCurrent hVer with ⟨h, hPlan⟩
    rcases hC.plan_cases hSea hNames with
      ⟨g₁, hU, -, ⟨hFinds, p', hPlan', -, hSecure⟩ | ⟨-, hStale⟩⟩
    · obtain ⟨rfl, rfl⟩ := hPlan.unique hPlan'
      have hBack : h.Unchanged g := ⟨hU.1.symm, hU.2.1.symm, hU.2.2.symm⟩
      rw [Yields, outcome_commit_of_current hVer] at hCommit
      exact ⟨p, g, .refl, rfl, ⟨rule, f, hFinds⟩, hSecure.of_unchanged hBack,
        (drawn_of_plan hPlan).of_resembles hBack.1.resembles, hCommit⟩
    · exact absurd hStale hPlan.not_fails
  · rw [Yields, outcome_commit_of_outdated hVer] at hCommit
    have hFinds := hC.finds_of_apply hSea hNames hCommit
    exact hC.carries_of_apply hSea ⟨rule, f, hFinds⟩ hCommit

theorem Commits.exists_performs {ms : List Match} {steps : List Step}
    (hCommits : rs.Commits ms g steps g') (hCnt : Scalar.Counts K g'.nextId)
    (hC : rs.Compiled) (hRules : ∀ rule ∈ rs.rules, rule.Reachable)
    (hNames : ∀ m ∈ ms, ∃ rule f, rs.Names m rule f) {a : Graph K}
    (hWk : a.Workable (fun _ _ => True) g) :
    ∃ carried, rs.Performs g carried g' ∧ carried.map Prod.snd = steps := by
  induction hCommits with
  | done hRead => exact ⟨[], .done hRead.unchanged, rfl⟩
  | step hRead hKnown hCurrent hCommit hRest ih =>
    have hWk₁ := hWk.of_reranked hRead
    rcases hNames _ hKnown with ⟨rule, f, hName⟩
    have hStep : RuleSet.Commits rs ms _ (_ :: _) _ :=
      .step .refl hKnown hCurrent hCommit hRest
    have hSea := hWk₁.searchable_of (hCnt.mono (hStep.nextId_le hWk₁.intact.sound))
    rcases hC.carries_of_commit hSea hName hCurrent hCommit with ⟨p, b, hRer, -, hCar⟩
    have hWk₂ := (hWk₁.of_reranked hRer).carryOut (spares_always rs) hRules hCar.secure.ready
      hCar.yields
    rcases ih hCnt hWk₂ with ⟨carried, hPerf, rfl⟩
    exact ⟨_, .step (hRead.unchanged.trans hRer.unchanged) hCar hPerf, rfl⟩

---- Bindings ----

variable {K : Type} {rs : RuleSet K} {g : Graph K}

/-
  Whether a search binds nodes to the pattern of a rule at an
  anchor and the check of the boundary passes: all that makes
  a match but that it is convex.
-/
def Tentative (rs : RuleSet K) (g : Graph K) (anchor : Slot) (i : Nat) (ids : List Nat) : Prop :=
  ∃ p binding m, rs.pattern i = .ok p ∧ (i, binding) ∈ rs.bindingsAt g anchor ∧
    binding.map Slot.toNat = ids ∧ p.boundary g i anchor binding = .ok (some m)

theorem Compiled.tentative_iff (hC : rs.Compiled) (hS : g.Sound) {anchor : Slot} {i : Nat}
    {ids : List Nat} :
    rs.Tentative g anchor i ids ↔ ∃ p rule f, rs.patterns[i]? = some p ∧ rs.rules[i]? = some rule ∧
      p.nodes.map f = ids ∧ ids.head? = some anchor.toNat ∧ rule.pattern.Occurs g f := by
  constructor
  · rintro ⟨p, binding, m, hPat, hBinding, rfl, hBd⟩
    rw [pattern_eq_ok_iff] at hPat
    rcases hC.mem_bindingsAt_iff.mp hBinding with ⟨q, hQ, hWalk⟩
    obtain rfl := eq_of_some hPat hQ
    rcases hC.exists_binds_of_walk hS hPat hWalk with ⟨hHead, rule, f, hBinds⟩
    rcases hBinds.exists_boundary hS anchor with ⟨answer, hAnswer, hMeans, -⟩
    cases hAnswer.symm.trans hBd
    exact ⟨p, rule, f, hPat, hBinds.member, hBinds.ids.symm, hHead, hMeans.mp rfl⟩
  · rintro ⟨p, rule, f, hPat, hRule, rfl, hHead, hOcc⟩
    rcases hC.exists_binds_of_occurs hS hRule hOcc hPat hHead with
      ⟨binding, hBinding, hBinds⟩
    rcases hBinds.exists_boundary hS anchor with ⟨answer, hAnswer, hMeans, -⟩
    rcases Option.isSome_iff_exists.mp (hMeans.mpr hOcc) with ⟨m, rfl⟩
    exact ⟨p, binding, m, pattern_eq_ok_iff.mpr hPat, hBinding, hBinds.ids, hAnswer⟩

end RuleSet

/-
  Matches of a graph are committed one after the other.  An
  operation that is then farther from all touched ones than
  patterns are large was there before, and patterns can be
  bound to the same nodes at it before and after.
-/
theorem bindings_kept_far_from_commits
    {K : Type}
    [Scalar K]
    [Scalar.Ordered K]
    {rules : List (Rule K)}
    (hRules : ∀ rule ∈ rules, rule.Reachable)
    {rs : RuleSet K}
    (hCompile : RuleSet.compile rules = .ok rs)
    {g : Graph K}
    (hReach : g.Reachable)
    (hFormed : g.validate = .ok ())
    {ms : List Match}
    {g₀ : Graph K}
    (hFound : Yields (rs.findMatches none) g ms g₀)
    {steps : List Step}
    {g' : Graph K}
    (hCommits : rs.Commits ms g₀ steps g')
    (hCounts : Scalar.Counts K g'.nextId)
    {n : Nat}
    (hOp : n ∈ g'.opIds)
    (hFar : n ∉ (g'.neighbourhood (steps.flatMap Step.touched) rs.radius).map Slot.toNat) :
    n ∈ g.opIds ∧ ∀ i ids, rs.Tentative g (.number n) i ids ↔ rs.Tentative g' (.number n) i ids := by
  rcases RuleSet.compiled_of_reachable hRules hCompile with ⟨rfl, hCompiled⟩
  have hWork : g.Workable (fun _ _ => True) g := .of_reachable hReach
    (hReach.intact.validate_ok_iff.mp hFormed) (.of_all (fun _ => trivial) g)
  have hRead := (Reads.findMatches rs none).reranked hFound
  have hWork₀ := hWork.of_reranked hRead
  have hSearch : g.Searchable := hWork.searchable_of (hCounts.mono
    (hRead.unchanged.1.nextId.ge.trans (hCommits.nextId_le hWork₀.intact.sound)))
  have hNames : ∀ m ∈ ms, ∃ rule f, rs.Names m rule f :=
    fun m hMem => hCompiled.names_of_mem hSearch hFound hMem
  rcases hCommits.exists_performs hCounts hCompiled hRules hNames hWork₀ with
    ⟨carried, hPerforms, rfl⟩
  have hSound := hWork.intact.sound
  have hSound' := hPerforms.sound hWork₀.intact.sound
  have hEdited := (Graph.Edited.of_alike hRead.unchanged.1).trans
    (hPerforms.edited hCompiled hWork₀.intact.sound hWork₀.formed.acyclic)
  have hSlots : ∀ n ∈ g'.opIds, (False ∨ n ∈ ((carried.map Prod.snd).flatMap Step.touched).map
      Slot.toNat) → n ∈ ((carried.map Prod.snd).flatMap Step.touched).map Slot.toNat :=
    fun n _ hTouched => hTouched.resolve_left id
  have hOccurs : ∀ {i : Nat} {p : Pattern} {rule : Rule K} {f : Nat → Nat},
      rs.patterns[i]? = some p → rs.rules[i]? = some rule → (p.nodes.map f).head? = some n →
      (rule.pattern.Occurs g f ↔ rule.pattern.Occurs g' f) := by
    intro i p rule f hPattern hRule hHead
    refine RuleSet.occurs_iff_of_far hCompiled hRule hPattern hEdited hSound hSound' hSlots ?_
    intro k hK
    obtain rfl := eq_of_some hHead hK
    exact ⟨hOp, hFar⟩
  constructor
  · -- an operation that is touched is in the neighbourhood itself
    refine hEdited.old n hOp (fun hTouched => hFar (hSound'.mem_neighbourhood_iff_near.mpr ?_))
    exact Graph.near_of_mem hOp (hSlots n hOp hTouched)
  · intro i ids
    rw [hCompiled.tentative_iff hSound, hCompiled.tentative_iff hSound']
    constructor
    · rintro ⟨p, rule, f, hPattern, hRule, rfl, hHead, hThere⟩
      exact ⟨p, rule, f, hPattern, hRule, rfl, hHead, (hOccurs hPattern hRule hHead).mp hThere⟩
    · rintro ⟨p, rule, f, hPattern, hRule, rfl, hHead, hThere⟩
      exact ⟨p, rule, f, hPattern, hRule, rfl, hHead, (hOccurs hPattern hRule hHead).mpr hThere⟩

def pairsInARow : Except Fault (List (Rule ℚ) × RuleSet ℚ × Graph ℚ × Match × Match) := do
  let rules ← [Kind.x, .h].mapM Identities.squareVanishes
  let rs ← RuleSet.compile rules
  let g ← Graph.ofCircuit
    (Identities.circuit 2 [(.x, [0]), (.x, [0]), (.h, [0]), (.h, [0]), (.h, [1]), (.h, [1])])
  g.validate
  let ms ← (outcome (rs.findMatches none) g).1
  let first ← ms[0]?.elim (.error .absent) .ok
  let second ← ms[1]?.elim (.error .absent) .ok
  return (rules, rs, g, first, second)

theorem exists_pairsInARow {check : List (Rule ℚ) × RuleSet ℚ × Graph ℚ × Match × Match → Bool}
    (hCheck : pairsInARow.toOption.any check = true) :
    ∃ rules rs g m₁ m₂ ms, pairsInARow = .ok (rules, rs, g, m₁, m₂) ∧
      (∀ rule ∈ rules, rule.Reachable) ∧ RuleSet.compile rules = .ok rs ∧ g.Reachable ∧
      g.validate = .ok () ∧
      Yields (rs.findMatches none) g ms (outcome (rs.findMatches none) g).2 ∧
      m₁ ∈ ms ∧ m₂ ∈ ms ∧ check (rules, rs, g, m₁, m₂) = true := by
  rcases exists_of_toOption_any hCheck with ⟨⟨rules, rs, g, m₁, m₂⟩, hTask, hCheck⟩
  have hParts := hTask
  rcases bind_eq_ok_iff.mp hParts with ⟨rules', hRules, hParts⟩
  rcases bind_eq_ok_iff.mp hParts with ⟨rs', hComp, hParts⟩
  rcases bind_eq_ok_iff.mp hParts with ⟨g', hBuilt, hParts⟩
  rcases bind_eq_ok_iff.mp hParts with ⟨⟨⟩, hF, hParts⟩
  rcases bind_eq_ok_iff.mp hParts with ⟨ms, hFnd, hParts⟩
  rcases bind_eq_ok_iff.mp hParts with ⟨m₁', hFirst, hParts⟩
  rcases bind_eq_ok_iff.mp hParts with ⟨m₂', hSecond, hParts⟩
  obtain ⟨rfl, rfl, rfl, rfl, rfl⟩ : rules' = rules ∧ rs' = rs ∧ g' = g ∧ m₁' = m₁ ∧ m₂' = m₂ := by
    simpa using Except.ok.inj hParts
  have hM : ∀ {i : Nat} {m : Match}, ms[i]?.elim (Except.error Fault.absent) Except.ok = .ok m →
      m ∈ ms := by
    intro i m hAt
    cases hGet : ms[i]? with
    | none => simp [hGet] at hAt
    | some first =>
      rw [hGet] at hAt
      exact Except.ok.inj hAt ▸ List.mem_of_getElem? hGet
  exact ⟨_, _, _, _, _, ms, hTask,
    Identities.reachable_of_mapM (fun _ _ => Rule.reachable_of_ofCircuits) hRules, hComp,
    Graph.reachable_of_ofCircuit hBuilt, hF, Prod.ext hFnd rfl, hM hFirst, hM hSecond,
    hCheck⟩

/- Both plans are made first, so that the second one no longer fits when it is committed. -/
def commitBoth (rs : RuleSet ℚ) (m₁ m₂ : Match) :
    Edit ℚ (Plan × Plan × Option Plan × Step × Nat × Step) := do
  let p ← rs.plan m₁
  let q ← rs.plan m₂
  let g ← get
  let s ← rs.commit p
  let version := (← get).version
  let t ← rs.commit q
  return (p, q, (outcome (rs.plan m₁) g).1.toOption, s, version, t)

/- The pair on the other qubit can be bound to its pattern before and after. -/
theorem bindings_kept_far_from_commits_elsewhere :
    ∃ rules rs g m₁ m₂ ms s t g', pairsInARow = .ok (rules, rs, g, m₁, m₂) ∧
      rs.Commits ms (outcome (rs.findMatches none) g).2 [s, t] g' ∧ 6 ∈ g'.opIds ∧ 6 ∈ g.opIds ∧
      ∀ i ids, rs.Tentative g (.number 6) i ids ↔ rs.Tentative g' (.number 6) i ids := by
  have hCheck : pairsInARow.toOption.any (fun task =>
      let run := outcome (commitBoth task.2.1 task.2.2.2.1 task.2.2.2.2)
        (outcome (task.2.1.findMatches none) task.2.2.1).2
      run.1.toOption.any (fun out => out.1.found == task.2.2.2.1 && out.2.1.found == task.2.2.2.2 &&
        out.2.2.1 == some out.1 && out.2.2.2.2.1 != out.2.1.version && decide (6 ∈ run.2.opIds) &&
        decide (6 ∉ (run.2.neighbourhood ([out.2.2.2.1, out.2.2.2.2.2].flatMap Step.touched)
          task.2.1.radius).map Slot.toNat))) = true := by cbv
  rcases exists_pairsInARow hCheck with
    ⟨rules, rs, g, m₁, m₂, ms, hTask, hRules, hCompile, hReach, hFormed, hFound, hFirst, hSecond, hRun⟩
  rcases exists_of_toOption_any hRun with ⟨⟨p, q, again, s, version, t⟩, hOut, hAll⟩
  simp only [Bool.and_eq_true, beq_iff_eq, bne_iff_ne, decide_eq_true_eq] at hAll
  rcases hAll with ⟨⟨⟨⟨⟨hP, hQ⟩, hAgain⟩, hVersion⟩, hOp⟩, hFar⟩
  rcases yields_bind_iff.mp (Prod.ext hOut rfl) with ⟨_, g₁, hPlan, hAfter₁⟩
  rcases yields_bind_iff.mp hAfter₁ with ⟨_, g₂, hPlan', hAfter₂⟩
  rcases yields_bind_iff.mp hAfter₂ with ⟨_, _, hGet, hAfter₃⟩
  obtain ⟨rfl, rfl⟩ := yields_get_iff.mp hGet
  rcases yields_bind_iff.mp hAfter₃ with ⟨_, g₃, hCommit, hAfter₄⟩
  rcases yields_bind_iff.mp hAfter₄ with ⟨_, _, hGet', hAfter₅⟩
  obtain ⟨rfl, rfl⟩ := yields_get_iff.mp hGet'
  rcases yields_bind_iff.mp hAfter₅ with ⟨_, g₄, hCommit', hAfter₆⟩
  rcases yields_pure_iff.mp hAfter₆ with ⟨hSame, hEnd⟩
  simp only [Prod.mk.injEq] at hSame
  obtain ⟨rfl, rfl, hPlan'', rfl, rfl, rfl⟩ := hSame
  subst hP hQ hEnd
  have hRead := ((Reads.plan rs _).reranked hPlan).trans ((Reads.plan rs _).reranked hPlan')
  have hCommits : rs.Commits ms (outcome (rs.findMatches none) g).2 [s, t]
      (outcome (commitBoth rs p.found q.found) (outcome (rs.findMatches none) g).2).2 := by
    refine .step hRead hFirst (fun _ => ?_) hCommit (.step .refl hSecond ?_ hCommit' (.done .refl))
    · have hAny := congrArg (Option.any (· == p)) (hPlan''.symm.trans hAgain)
      rcases exists_of_toOption_any (hAny.trans (beq_self_eq_true p)) with ⟨_, hOk, hSame⟩
      rw [beq_iff_eq.mp hSame] at hOk
      exact ⟨_, Prod.ext hOk rfl⟩
    · exact fun hStill => absurd hStill hVersion
  exact ⟨rules, rs, g, _, _, ms, _, _, _, hTask, hCommits, hOp,
    bindings_kept_far_from_commits hRules hCompile hReach hFormed hFound
      hCommits (Scalar.counts_rational _) hOp hFar⟩

end CircuitGraph
