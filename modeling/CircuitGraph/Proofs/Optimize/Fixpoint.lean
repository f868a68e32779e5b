import CircuitGraph.Proofs.Optimize.Savings

/-
  What is left when a greedy optimisation ends by itself.

  A level is left when no match saves anything there.  Levels
  are visited once, the innermost first.

  Main declarations:
    * `Task.Settled`: levels with nothing to save
    * `optimize_fixpoint_idle`
    * `greedy_search_leaves_nothing`
-/

---- Nested Graphs ----

namespace CircuitGraph

open List CircuitGraph.Graph Search

variable {K : Type}

namespace Graph

def Nested (S : Graph K → Prop) (g : Graph K) : Prop :=
  ∀ path body, path ≠ [] → g.bodyAt? path = some body → S body

variable {S : Graph K → Prop} {g g' : Graph K}

theorem Nested.of_alike (hNested : g.Nested S) (hA : g.Alike g') : g'.Nested S := by
  intro path body hPath hB
  cases path with
  | nil => exact absurd rfl hPath
  | cons n path =>
    refine hNested (n :: path) body hPath ?_
    rwa [bodyAt?_cons, op?, hA.ops, ← op?, ← bodyAt?_cons] at hB

theorem Substituted.nested {m : Match} {rule : Rule K} {step : Step}
    (hDone : g.Substituted m rule step g') (hS : g.Sound) (hI : rule.replacement.Intact)
    (hSame : ∀ b b' : Graph K, b.Intact → b'.Intact → b'.essence = b.essence → S b → S b')
    (hRule : rule.replacement.Nested S) (hNested : g.Nested S) : g'.Nested S := by
  intro path body hPath hB
  cases path with
  | nil => exact absurd rfl hPath
  | cons n path =>
    rcases bodyAt?_cons_iff.mp hB with ⟨node, inner, hOp, hIn, hRest⟩
    rcases op?_eq_some hOp with ⟨hN, hId⟩
    rcases (hDone.ops node).mp hN with ⟨hOld, -⟩ | ⟨r, hR, rfl⟩
    · apply hNested (n :: path) body hPath
      exact bodyAt?_cons_iff.mpr ⟨node, inner, hS.op?_iff.mpr ⟨hOld, hId⟩, hIn, hRest⟩
    · rcases Option.map_eq_some_iff.mp hIn with ⟨source, hSrc, rfl⟩
      have hIn := hI.body hR hSrc
      rcases hIn.exists_bodyAt?_of_essence hIn.copy hIn.essence_copy hRest with
        ⟨body₀, hB₀, hEss⟩
      apply hSame body₀ body (hIn.bodyAt? hB₀) (hIn.copy.bodyAt? hRest) hEss
      apply hRule (r.id :: path) body₀ (cons_ne_nil _ _)
      exact bodyAt?_cons_iff.mpr ⟨r, source, hI.sound.op?_id hR, hSrc, hB₀⟩

end Graph

variable [Scalar K]

theorem RuleSet.Performs.nested {rs : RuleSet K} {b b' : Graph K} {carried : List (Match × Step)}
    (hPerf : rs.Performs b carried b') (hC : rs.Compiled) (hS : b.Sound)
    (hAcy : b.Acyclic) {S : Graph K → Prop}
    (hSame : ∀ b b' : Graph K, b.Intact → b'.Intact → b'.essence = b.essence → S b → S b')
    (hRules : ∀ rule ∈ rs.rules, rule.replacement.Nested S) (hNested : b.Nested S) :
    b'.Nested S := by
  induction hPerf with
  | done hU => exact hNested.of_alike hU.1
  | step hU hCar _ ih =>
    have hS₁ := hS.of_alike hU.1
    rcases hCar.exists_substituted hS₁ (hU.1.acyclic hAcy) with
      ⟨rule, f, hFinds, hDone, hAcy₂⟩
    have hRule := mem_of_getElem? hFinds.member
    apply ih (hCar.sound hS₁) hAcy₂
    exact hDone.nested hS₁ (hC.usable hRule).replacement hSame (hRules rule hRule)
      (hNested.of_alike hU.1)

---- Levels ----

def Task.Settled (t : Task K) (body : Graph K) : Prop :=
  t.cost.isLocal = true ∧ t.rules.Spent t.cost body

theorem Task.Settled.of_essence {t : Task K} (b b' : Graph K) (hI : b.Intact)
    (hI' : b'.Intact) (hEss : b'.essence = b.essence) (hSet : t.Settled b) :
    t.Settled b' :=
  ⟨hSet.1, hSet.2.of_resembles hSet.1 (resembles_of_essence hI.sound.unique
    hI'.sound.unique hEss.symm)⟩

/- What the rounds of a greedy search leave: the end comes when nothing is saved any more. -/
def Greedy.Leaves (t : Task K) (place : Graph K → Graph K) :
    Option Status ⊕ Bool × List Match → Run K → Prop
  | .inl none, r => t.rules.SpentIn t.cost place r.level
  | .inl (some status), _ => status ≠ .fixpoint
  | .inr (fresh, ms), r => fresh = true → t.rules.Lists r.level ms

namespace Task.Regular

variable [Scalar.Ordered K] {t : Task K} (hReg : t.Regular) {site : Site K}
  {done : List Step} {r : Run K} {ms : List Match} {fresh : Bool}

theorem leaves_of_round (hGains : ruleGains t.cost t.rules = .ok t.gains)
    (hAt : hReg.conduct.At site done r) (hFresh : fresh = true → t.rules.Lists r.level ms)
    {next : Option Status ⊕ Bool × List Match} {r' : Run K}
    (hRound : hReg.conduct.Round site done fresh ms r next r') :
    Greedy.Leaves t (site.root.replaceAt site.path) next r' := by
  cases hRound with
  | @stop status _ _ hStill hCut hFinished =>
    cases status with
    | some status => exact fun hFixpoint => hCut (congrArg some hFixpoint)
    | none =>
      rcases hFinished rfl with ⟨hAll, hNone⟩
      show t.rules.SpentIn t.cost _ r'.level
      rw [hStill.level]
      exact (hReg.batch_eq_nil_iff hGains hAt (hFresh hAll)).mp hNone
  | rescan _ _ _ _ _ hAll => exact fun _ => hReg.lists_of_findMatches hAt hAll
  | drop _ _ _ _ _ hOutdated =>
    -- matches that are all there have some effect
    intro hAll
    rcases hOutdated with ⟨m, hM, b, hU, hOutdated⟩
    rcases (hFresh hAll).found m hM with ⟨rule, f, hFinds⟩
    exact absurd hOutdated (hReg.not_outdated (hFinds.of_alike hU.1))
  | batch _ _ _ _ _ hHere _ _ _ _ _ hRows =>
    rcases hRows with ⟨level, rows, hGood, hU, -, -, hAll⟩
    have hThere : hReg.conduct.At site _ { r' with level := level } := hHere.of_root rfl hGood
    exact fun hFresh => hReg.lists_of_findMatches hThere (hAll hFresh)

variable (hGains : ruleGains t.cost t.rules = .ok t.gains) {S : Graph K → Prop}
  (hSame : ∀ b b' : Graph K, b.Intact → b'.Intact → b'.essence = b.essence → S b → S b')
  (hRules : ∀ rule ∈ t.rules.rules, rule.replacement.Nested S)

include hGains hSame hRules

section

variable (hAt : hReg.conduct.At site done r) (hNested : r.level.Nested S)

include hAt hNested

theorem ends_greedyLoop_spent (hKnown : ∀ m ∈ ms, hReg.conduct.Known m)
    (hFresh : fresh = true → t.rules.Lists r.level ms) (fuel : Nat) :
    Ends (Greedy.loop t site.path fuel fresh ms) r
      (fun stop r' => r'.level.Nested S ∧ stop ≠ some .fixpoint ∧
        (stop = none → t.rules.SpentIn t.cost (site.root.replaceAt site.path) r'.level))
      (fun _ _ => True) := by
  induction fuel generalizing fresh ms r done with
  | zero => exact .of_throw trivial
  | succ fuel ih =>
    rw [Greedy.loop_succ]
    refine (Conduct.ends_round hAt hKnown fresh).loosen.bind ?_
    rintro next r' hRound
    have hLeaves := hReg.leaves_of_round hGains hAt hFresh hRound
    cases hRound with
    | @stop status r' hHere hStill =>
      refine .of_pure ⟨hStill.level ▸ hNested, ?_, ?_⟩
      · rintro rfl
        exact hLeaves rfl
      · rintro rfl
        exact hLeaves
    | rescan hStalled hHere hAr hU hFnd =>
      exact ih hHere (hNested.of_alike hU.1) hFnd hLeaves
    | drop hHere hAr hU hFewer hL =>
      exact ih hHere (hNested.of_alike hU.1) hL hLeaves
    | batch hEffective hBef hGoes hReadings hIter hHere hLog hDer hChosen hFnd =>
      have hSea := hReg.searchable hAt
      refine ih hHere ?_ hFnd hLeaves
      exact (hReg.performs hDer).nested hReg.compiled hSea.sound hSea.acyclic hSame hRules hNested

theorem ends_greedy_spent (fuel : Nat) : Ends (Greedy.optimize t fuel site.path) r
      (fun stop r' => r'.level.Nested S ∧ stop ≠ some .fixpoint ∧
        (stop = none → t.rules.SpentIn t.cost (site.root.replaceAt site.path) r'.level))
      (fun _ _ => True) := by
  refine (hReg.ends_findInLevel hAt).loosen.bind ?_
  rintro found r₁ ⟨hAt₁, -, hU, hLists⟩
  exact hReg.ends_greedyLoop_spent hGains hSame hRules hAt₁ (hNested.of_alike hU.1)
    (fun m hM => hReg.known_of_finds (hLists.found m hM)) (fun _ => hLists) fuel

end

end Task.Regular

---- All Levels ----

def Task.SettledAt (t : Task K) (path : List Nat) (body : Graph K) : Prop :=
  (t.cost.isLocal = true ∨ path = []) ∧ t.rules.Spent t.cost body

def Task.SettledBut (t : Task K) (paths : List (List Nat)) (root : Graph K) : Prop :=
  ∀ path body, root.bodyAt? path = some body →
    path ∈ paths ∨ (∀ other ∈ paths, other.length ≤ path.length) ∧ t.SettledAt path body

namespace Task.SettledBut

variable {t : Task K} {path : List Nat} {paths : List (List Nat)} {root base level : Graph K}

section

variable (hSet : t.SettledBut (path :: paths) root) (hPlace : root.bodyAt? path = some base)
  (hLadder : root.Ladder (path :: paths))

include hSet hPlace hLadder

theorem nested : base.Nested t.Settled := by
  intro rest body hRest hB
  have hLonger := length_pos_iff.mpr hRest
  have hIn : root.bodyAt? (path ++ rest) = some body := by
    rw [bodyAt?_append, hPlace]
    exact hB
  rcases hSet _ body hIn with hM | ⟨-, hWhere, hSpent⟩
  · exfalso
    have hLen : (path ++ rest).length = path.length + rest.length := length_append
    rcases mem_cons.mp hM with hSame | hLater
    · rw [hSame] at hLen
      omega
    · have hLess := (pairwise_cons.mp hLadder.lengths).1 _ hLater
      omega
  · refine ⟨hWhere.resolve_right (fun hNil => hRest ?_), hSpent⟩
    exact (append_eq_nil_iff.mp hNil).2

theorem replaceAt (hHere : t.SettledAt path level) (hNested : level.Nested t.Settled) :
    t.SettledBut paths (root.replaceAt path level) := by
  have hLater := (pairwise_cons.mp hLadder.lengths).1
  intro other body hB
  by_cases hBelow : path <+: other
  · -- inside the level
    rcases hBelow with ⟨rest, rfl⟩
    rw [bodyAt?_append, bodyAt?_replaceAt hPlace] at hB
    refine .inr ⟨fun last hLast => ?_, ?_⟩
    · have hLess := hLater last hLast
      rw [length_append]
      omega
    · cases rest with
      | nil =>
        obtain rfl := Option.some.inj hB
        rwa [append_nil]
      | cons n rest =>
        have hIn := hNested (n :: rest) body (cons_ne_nil _ _) hB
        exact ⟨.inl hIn.1, hIn.2⟩
  · have hOther : other ∈ path :: paths → other ∈ paths := by
      intro hM
      rcases mem_cons.mp hM with rfl | hM
      · exact absurd (prefix_refl _) hBelow
      · exact hM
    by_cases hAbove : other <+: path
    · -- around the level: such levels are still to come
      rcases hAbove with ⟨rest, rfl⟩
      have hRest : rest ≠ [] := by
        rintro rfl
        exact hBelow (by simp)
      have hLonger := length_pos_iff.mpr hRest
      rw [bodyAt?_append] at hPlace
      rcases Option.bind_eq_some_iff.mp hPlace with ⟨around, hAr, -⟩
      rcases hSet other around hAr with hM | ⟨hLast, -⟩
      · exact .inl (hOther hM)
      · have hLess := hLast _ mem_cons_self
        rw [length_append] at hLess
        omega
    · -- elsewhere
      rw [bodyAt?_replaceAt_apart hBelow hAbove] at hB
      rcases hSet other body hB with hM | ⟨hLast, hThere⟩
      · exact .inl (hOther hM)
      · exact .inr ⟨fun last hM => hLast last (mem_cons_of_mem _ hM), hThere⟩

end

end Task.SettledBut

namespace Task.Regular

variable [Scalar.Ordered K] {t : Task K} (hReg : t.Regular) {r : Run K} {start : Graph K}
  {paths : List (List Nat)}

section

variable (hMode : t.settings.mode = .greedy)

include hMode

theorem ends_runLevels_spent (hGains : ruleGains t.cost t.rules = .ok t.gains)
    (hRules : ∀ rule ∈ t.rules.rules, rule.replacement.Nested t.Settled)
    (hGood : hReg.conduct.Good start r.log r.root)
    (hLadder : r.root.Ladder paths)
    (hPaths : ∀ path ∈ paths, t.cost.isLocal = true ∨ path = [])
    (hSet : t.SettledBut paths r.root) (fuel : Nat) : Ends (Search.runLevels t fuel paths) r
      (fun stop r' => stop ≠ some .fixpoint ∧
        (stop = none → ∀ path body, r'.root.bodyAt? path = some body → t.SettledAt path body))
      (fun _ _ => True) := by
  induction paths generalizing r with
  | nil =>
    refine .of_pure ⟨by simp, fun _ path body hB => ?_⟩
    rcases hSet path body hB with hNever | ⟨-, hHere⟩
    · exact absurd hNever not_mem_nil
    · exact hHere
  | cons path paths ih =>
    rcases hLadder.places path mem_cons_self with ⟨base, hPlace⟩
    have hEnter := Conduct.at_enter hGood hPlace
    have hNested : ((r.root.bodyAt? path).getD r.root).Nested t.Settled := by
      rw [hPlace]
      exact hSet.nested hPlace hLadder
    have hLevel := (Conduct.ends_runLevel hEnter (by simp [Conduct.Logged]) fuel).and
      (runLevel_greedy hMode fuel path ▸ hReg.ends_greedy_spent hGains
        Task.Settled.of_essence hRules hEnter hNested fuel)
    refine .modify_bind (hLevel.loosen.bind ?_)
    rintro stop r₁ ⟨⟨done, hAt, hLogged⟩, hNested₁, hStatus, hSpent⟩
    refine .modify_bind ?_
    cases stop with
    | some status => exact .get_bind (.modify_bind (.of_pure ⟨hStatus, by simp⟩))
    | none =>
      refine ih (hAt.good_leave hLogged) (hAt.ladder_leave hLadder)
        (fun other hM => hPaths other (mem_cons_of_mem _ hM)) ?_
      have hRoot : r₁.root = r.root := hAt.root
      rw [hRoot]
      have hPath := hPaths path mem_cons_self
      exact hSet.replaceAt hPlace hLadder
        ⟨hPath, (RuleSet.spentIn_replaceAt_iff hPath).mp (hSpent rfl)⟩ hNested₁

theorem not_allowed {fault : Fault} : ¬ hReg.conduct.Allowed fault := by
  rintro ⟨-, hBounded, -⟩
  exact nomatch hMode.symm.trans hBounded

theorem ends_greedy_idle (hGains : ruleGains t.cost t.rules = .ok t.gains) {site : Site K}
    {done : List Step} (hAt : hReg.conduct.At site done r)
    (hSet : t.SettledAt site.path r.level) (fuel : Nat) :
    Ends (Greedy.optimize t (fuel + 1) site.path) r
      (fun stop r' => stop = none ∧ hReg.conduct.At site done r' ∧ r.Around r' ∧
        r.level.Unchanged r'.level)
      (fun _ _ => False) := by
  have hNever : ∀ fault (s : Run K), hReg.conduct.Allowed fault → False :=
    fun _ _ => hReg.not_allowed hMode
  refine ((hReg.ends_findInLevel hAt).mono (fun _ _ hFnd => hFnd) hNever).bind ?_
  rintro found r₁ ⟨hAt₁, hAr, hU, hLists⟩
  have hWk := hReg.workable hAt.level
  have hSpent : t.rules.Spent t.cost r₁.level :=
    hReg.spent_of_essence hWk (hReg.workable hAt₁.level)
      (essence_of_alike hU.1 hWk.intact.sound.unique).symm hSet.2
  have hSelect := Conduct.ends_select hAt₁ (fun m hM => hReg.known_of_finds (hLists.found m hM))
  rw [Greedy.loop_succ, Greedy.round]
  refine Ends.bind (Q := fun next r' => next = .inl none ∧ r₁.Still r')
    ((hSelect.mono (fun _ _ hBatch => hBatch) hNever).bind ?_) ?_
  · rintro batch r₂ ⟨hStill, rfl⟩
    rw [(hReg.batch_eq_nil_iff hGains hAt₁ hLists).mpr
      ((RuleSet.spentIn_replaceAt_iff hSet.1).mpr hSpent)]
    exact .of_pure ⟨rfl, hStill⟩
  · rintro _ r₂ ⟨rfl, hStill⟩
    refine .of_pure ⟨rfl, hAt₁.of_still hStill, hAr.trans hStill.toAround, ?_⟩
    rw [hStill.level]
    exact hU

theorem ends_runLevels_idle (hGains : ruleGains t.cost t.rules = .ok t.gains)
    (hGood : hReg.conduct.Good start r.log r.root)
    (hLadder : r.root.Ladder paths)
    (hSet : ∀ path body, r.root.bodyAt? path = some body → t.SettledAt path body) (fuel : Nat) :
    Ends (Search.runLevels t (fuel + 1) paths) r
      (fun stop r' => stop = none ∧ start.Workable t.rules.Room r'.root ∧ r'.log = r.log ∧
        r'.iterations = r.iterations ∧ r'.root.essence = r.root.essence)
      (fun _ _ => False) := by
  induction paths generalizing r with
  | nil => exact .of_pure ⟨rfl, hReg.workable hGood, rfl, rfl, rfl⟩
  | cons path paths ih =>
    rcases hLadder.places path mem_cons_self with ⟨base, hPlace⟩
    have hEnter := Conduct.at_enter hGood hPlace
    have hHere : t.SettledAt path ((r.root.bodyAt? path).getD r.root) := by
      rw [hPlace]
      exact hSet path base hPlace
    refine .modify_bind (Ends.bind (runLevel_greedy hMode (fuel + 1) path ▸
      hReg.ends_greedy_idle hMode hGains hEnter hHere fuel) ?_)
    rintro stop r₁ ⟨rfl, hAt, hAr, hU⟩
    refine .modify_bind ?_
    have hWk := hReg.workable hGood
    have hLogged : Conduct.Logged ⟨start, r.log, r.root, path, base⟩ [] r₁ := by
      simpa [Conduct.Logged] using hAr.log
    have hLeave := hAt.good_leave hLogged
    have hRoot : r₁.root = r.root := hAt.root
    -- the level is put back as it was
    have hEss : (r₁.root.replaceAt path r₁.level).essence = r.root.essence := by
      have hLevel : r₁.level.essence = base.essence := by
        rw [hPlace] at hU
        exact (essence_of_alike hU.1 (hWk.intact.bodyAt? hPlace).sound.unique).symm
      rw [hRoot, hWk.intact.essence_replaceAt, hLevel, ← hWk.intact.essence_replaceAt,
        hWk.intact.replaceAt_self hPlace]
    have hSet₁ : ∀ other body, (r₁.root.replaceAt path r₁.level).bodyAt? other = some body →
        t.SettledAt other body := by
      intro other body hB
      have hWk₁ := hReg.workable hLeave
      rcases hWk.intact.exists_bodyAt?_of_essence hWk₁.intact hEss hB with
        ⟨before, hBef, hSame⟩
      rcases hSet other before hBef with ⟨hWhere, hSpent⟩
      exact ⟨hWhere, hReg.spent_of_essence (hWk.bodyAt? hBef) (hWk₁.bodyAt? hB) hSame hSpent⟩
    refine (ih hLeave (hAt.ladder_leave hLadder) hSet₁).mono ?_ (fun _ _ hNever => hNever)
    rintro stop r₂ ⟨hNone, hWk₂, hLog, hIter, hSame⟩
    exact ⟨hNone, hWk₂, hLog.trans hAr.log, hIter.trans hAr.iterations, hSame.trans hEss⟩

end

end Task.Regular

---- Optimisations ----

variable [Scalar.Ordered K]

/-
  When a greedy optimisation of all levels ends by itself, no
  match of the result saves anything at any level, and another
  optimisation does nothing.  This holds if the cost is local
  or no graph is nested, and if nothing can be saved in graphs
  that are nested in replacements.
-/
theorem optimize_fixpoint_idle
    {rules : List (Rule K)}
    (hRules : ∀ rule ∈ rules, rule.Reachable)
    {rs : RuleSet K}
    (hCompile : RuleSet.compile rules = .ok rs)
    {g : Graph K}
    (hReach : g.Reachable)
    (hFormed : g.validate = .ok ())
    (hRoomy : rs.Roomy g)
    {settings : Settings K}
    (hMode : settings.mode = .greedy)
    (hRecurse : settings.recurse = true)
    {cost : Cost K}
    (hCost : settings.cost.resolve = .ok cost)
    (hStandard : cost.Standard)
    (hLevels : cost.isLocal = true ∨ ∀ node ∈ g.ops, node.body = none)
    (hNested : ∀ rule ∈ rules, rule.replacement.Nested
      (fun body => cost.isLocal = true ∧ rs.Spent cost body))
    {fuel : Nat}
    {clock : Nat → Float}
    {events events' : List (Event K)}
    {o : Outcome K}
    (hDone : Yields (optimize fuel clock rs settings g) events o events')
    (hStatus : o.status = .fixpoint) :
    (∀ path body, o.graph.bodyAt? path = some body → rs.Spent cost body) ∧
    ∀ fuel' clock' events₁, ∃ o' events₂,
      Yields (optimize (fuel' + 1) clock' rs settings o.graph) events₁ o' events₂ ∧
      o'.status = .fixpoint ∧ o'.log = [] ∧ o'.iterations = 0 ∧
      o'.graph.toDescription = o.graph.toDescription := by
  rcases RuleSet.compiled_of_reachable hRules hCompile with ⟨rfl, hCompiled⟩
  have hWork := Graph.Workable.of_reachable hReach (hReach.intact.validate_ok_iff.mp hFormed)
    hRoomy.levels
  rcases ends_optimize_reports.1 _ _ hDone with ⟨cost₁, gains, stop, r, hCost₁, hGains, hRun, hReports, -⟩
  obtain rfl := eq_of_ok hCost₁ hCost
  let t : Task K := ⟨rs, cost₁, gains, settings, clock⟩
  have hRegular : t.Regular := ⟨hRoomy.spares, hCompiled, hRules, hStandard⟩
  have hGood : hRegular.conduct.Good g (Run.start g.copy).log (Run.start g.copy).root :=
    hRegular.good_copy hWork
  have hLadder := ladder_levelPaths hWork.copy.intact settings.recurse
  have hPaths : ∀ path ∈ Search.levelPaths settings.recurse g.copy,
      cost₁.isLocal = true ∨ path = [] := by
    intro path hMem
    refine hLevels.imp_right (fun hFlat => ?_)
    rcases hLadder.places path hMem with ⟨base, hBase⟩
    rcases hWork.intact.exists_bodyAt?_of_essence hWork.copy.intact hWork.intact.essence_copy hBase
      with ⟨body, hBody, -⟩
    cases path with
    | nil => rfl
    | cons n path =>
      rcases bodyAt?_cons_iff.mp hBody with ⟨node, inner, hOp, hInner, -⟩
      rw [hFlat node (op?_eq_some hOp).1] at hInner
      exact nomatch hInner
  have hAll : t.SettledBut (Search.levelPaths settings.recurse g.copy) (Run.start g.copy).root := by
    intro path body hBody
    rw [hRecurse]
    exact .inl (mem_levelPaths hWork.copy.intact hBody)
  rcases (hRegular.ends_runLevels_spent hMode hGains hNested hGood hLadder hPaths hAll fuel).1 stop r
    hRun with ⟨hNot, hSettled⟩
  have hNone : stop = none := by
    rcases stop with - | status
    · rfl
    · exact absurd (congrArg some (hReports.status.symm.trans hStatus)) hNot
  have hResult : g.Workable rs.Room o.graph := by
    rw [hReports.graph]
    exact hRegular.workable ((Conduct.ends_runLevels hGood fuel hLadder).1 stop r hRun)
  have hAgain : o.graph.Workable rs.Room o.graph := hResult.self
  have hSettled' : ∀ path body, o.graph.bodyAt? path = some body → t.SettledAt path body := by
    rw [hReports.graph]
    exact hSettled hNone
  refine ⟨fun path body hBody => (hSettled' path body hBody).2, fun fuel' clock' events₁ => ?_⟩
  -- the second optimisation starts from a copy
  let t' : Task K := ⟨rs, cost₁, gains, settings, clock'⟩
  have hRegular' : t'.Regular := ⟨hRoomy.spares, hCompiled, hRules, hStandard⟩
  have hCopy : ∀ path body, (Run.start o.graph.copy).root.bodyAt? path = some body →
      t'.SettledAt path body := by
    intro path body hBody
    rcases hAgain.intact.exists_bodyAt?_of_essence hAgain.copy.intact hAgain.intact.essence_copy hBody
      with ⟨before, hBefore, hSame⟩
    rcases hSettled' path before hBefore with ⟨hWhere, hSpent⟩
    exact ⟨hWhere, hRegular.spent_of_essence (hAgain.bodyAt? hBefore) (hAgain.copy.bodyAt? hBody)
      hSame hSpent⟩
  have hIdle := hRegular'.ends_runLevels_idle hMode hGains (r := Run.start o.graph.copy)
    (hRegular'.good_copy hAgain)
    (ladder_levelPaths hAgain.copy.intact settings.recurse) hCopy fuel'
  have hEnds := ends_optimize_of_search hCompiled hAgain hCost hStandard (fun gains' hGains' => by
    obtain rfl := eq_of_ok hGains hGains'
    exact hIdle.mono (fun _ _ hEnd => hEnd.2.1) (fun _ _ hNever => hNever)) events₁
  rcases yields_or_fails (optimize (fuel' + 1) clock' rs settings o.graph) events₁ with
    ⟨o', events₂, hYields⟩ | ⟨fault, events₂, hFails⟩
  · rcases ends_optimize_reports.1 _ _ hYields with
      ⟨cost₂, gains', stop', r', hCost₂, hGains', hRun', hReports', -⟩
    obtain rfl := eq_of_ok hCost₂ hCost
    obtain rfl := eq_of_ok hGains hGains'
    rcases hIdle.1 stop' r' hRun' with ⟨rfl, hWork', hLog, hIterations, hEssence⟩
    refine ⟨o', events₂, hYields, ?_, ?_, ?_, ?_⟩
    · rw [hReports'.status, ← hStatus, hReports.status, hNone]
    · rw [hReports'.log, hLog]
      rfl
    · rw [hReports'.iterations, hIterations]
      rfl
    · rw [hReports'.graph]
      exact hWork'.intact.toDescription_eq hAgain.intact
        (hEssence.trans hAgain.intact.essence_copy)
  · exact absurd (hEnds.2 fault events₂ hFails) (fun hNever => hNever)

---- Inversions Inside and Beside a Container ----

namespace Graph

variable {K : Type}

theorem Nested.of_flat {S : Graph K → Prop} {g : Graph K}
    (hFlat : ∀ node ∈ g.ops, node.body = none) : g.Nested S := by
  intro path body hPath hB
  cases path with
  | nil => exact absurd rfl hPath
  | cons n path =>
    rcases bodyAt?_cons_iff.mp hB with ⟨node, inner, hOp, hIn, -⟩
    rw [hFlat node (op?_eq_some hOp).1] at hIn
    exact nomatch hIn

end Graph

def inversionOutcomes (cost : Cost ℚ) : Except Fault (Outcome ℚ × Outcome ℚ) := do
  let task ← inversionTask
  let o ← (outcome (optimize 4 (fun _ => 0) task.2.1 (.unlimited cost) task.2.2) []).1
  let o' ← (outcome (optimize 4 (fun _ => 0) task.2.1 (.unlimited cost) o.graph) []).1
  return (o, o')

theorem exists_inversionOutcomes {cost : Cost ℚ} {check : Outcome ℚ × Outcome ℚ → Bool}
    (hCheck : (inversionOutcomes cost).toOption.any check = true) :
    ∃ rule rs g o o' events events', inversionTask = .ok (rule, rs, g) ∧
      Identities.squareVanishes .x = .ok rule ∧ RuleSet.compile [rule] = .ok rs ∧
      g.Reachable ∧ g.validate = .ok () ∧
      Yields (optimize 4 (fun _ => 0) rs (.unlimited cost) g) [] o events ∧
      Yields (optimize 4 (fun _ => 0) rs (.unlimited cost) o.graph) [] o' events' ∧
      check (o, o') = true := by
  rcases exists_of_toOption_any hCheck with ⟨out, hRun, hCheck⟩
  rcases bind_eq_ok_iff.mp hRun with ⟨⟨rule, rs, g⟩, hTask, hRun⟩
  rcases bind_eq_ok_iff.mp hRun with ⟨o, hFirst, hRun⟩
  rcases bind_eq_ok_iff.mp hRun with ⟨o', hSecond, hRun⟩
  obtain rfl := Except.ok.inj hRun
  rcases parts_of_inversionTask hTask with ⟨hRule, hComp, hReach, hValid⟩
  exact ⟨rule, rs, g, o, o', _, _, hTask, hRule, hComp, hReach, hValid, Prod.ext hFirst rfl,
    Prod.ext hSecond rfl, hCheck⟩

/- Counting gates, nothing is left inside or beside the container. -/
theorem optimize_fixpoint_idle_nested :
    ∃ (rule : Rule ℚ) (rs : RuleSet ℚ) (g : Graph ℚ) (o : Outcome ℚ) (events : List (Event ℚ)),
      inversionTask = .ok (rule, rs, g) ∧
      Yields (optimize 4 (fun _ => 0) rs (.unlimited .gates) g) [] o events ∧
      o.status = .fixpoint ∧ o.log.length = 2 ∧
      (∀ path body, o.graph.bodyAt? path = some body → rs.Spent .gates body) ∧
      ∀ fuel' clock' events₁, ∃ o' events₂,
        Yields (optimize (fuel' + 1) clock' rs (.unlimited .gates) o.graph) events₁ o' events₂ ∧
        o'.status = .fixpoint ∧ o'.log = [] ∧ o'.iterations = 0 ∧
        o'.graph.toDescription = o.graph.toDescription := by
  have hCheck : (inversionOutcomes .gates).toOption.any
      (fun out => decide (out.1.status = .fixpoint ∧ out.1.log.length = 2)) = true := by cbv
  have hFlat : (Identities.squareVanishes (K := ℚ) .x).toOption.any
      (fun rule => rule.replacement.ops.isEmpty) = true := by cbv
  rcases exists_inversionOutcomes hCheck with
    ⟨rule, rs, g, o, o', events, events', hTask, hRule, hCompile, hReach, hValid, hDone, -, hOut⟩
  rcases of_decide_eq_true hOut with ⟨hStatus, hLog⟩
  have hRules : ∀ rule' ∈ [rule], rule'.Reachable := by
    intro rule' hMem
    obtain rfl := mem_singleton.mp hMem
    exact Rule.reachable_of_ofCircuits hRule
  have hNested : ∀ rule' ∈ [rule], rule'.replacement.Nested
      (fun body => (Cost.gates (K := ℚ)).isLocal = true ∧ rs.Spent .gates body) := by
    intro rule' hMem
    obtain rfl := mem_singleton.mp hMem
    rw [hRule] at hFlat
    refine .of_flat (fun node hNode => ?_)
    rw [List.isEmpty_iff.mp hFlat] at hNode
    exact absurd hNode not_mem_nil
  exact ⟨rule, rs, g, o, events, hTask, hDone, hStatus, hLog,
    optimize_fixpoint_idle hRules hCompile hReach hValid (rs.roomy_rational _) rfl rfl rfl .gates
      (.inl rfl) hNested hDone hStatus⟩

/-
  Measuring depth, the search inside the container comes too
  early: the inversions there save something only after those
  beside it have gone.
-/
theorem optimize_fixpoint_not_idle :
    ∃ (rule : Rule ℚ) (rs : RuleSet ℚ) (g : Graph ℚ) (o o' : Outcome ℚ)
      (events events' : List (Event ℚ)),
      inversionTask = .ok (rule, rs, g) ∧ g.Reachable ∧
      Yields (optimize 4 (fun _ => 0) rs (.unlimited .depth) g) [] o events ∧
      o.status = .fixpoint ∧
      Yields (optimize 4 (fun _ => 0) rs (.unlimited .depth) o.graph) [] o' events' ∧
      o'.log.length = 1 ∧ o'.iterations = 1 ∧ o'.finalCost < o.finalCost := by
  have hCheck : (inversionOutcomes .depth).toOption.any (fun out => decide (out.1.status = .fixpoint ∧
      out.2.log.length = 1 ∧ out.2.iterations = 1 ∧ out.2.finalCost < out.1.finalCost)) = true := by
    cbv
  rcases exists_inversionOutcomes hCheck with
    ⟨rule, rs, g, o, o', events, events', hTask, -, -, hReach, -, hDone, hAgain, hOut⟩
  rcases of_decide_eq_true hOut with ⟨hStatus, hLog, hIterations, hLess⟩
  exact ⟨rule, rs, g, o, o', events, events', hTask, hReach, hDone, hStatus, hAgain, hLog,
    hIterations, hLess⟩

---- Searches of One Level ----

end CircuitGraph
