import CircuitGraph.Proofs.Optimize.Batches
import CircuitGraph.Proofs.Optimize.Totals

/-
  What the steps of an optimisation save.

  A search under a local cost never measures what a step
  saves; it goes by the gain of its rule.

  Main declarations:
    * `RuleSet.Accounts`: what steps save
    * `savings_add_up`
-/

---- Gains of Steps ----

namespace CircuitGraph

open List

namespace RuleSet

variable {rs : RuleSet ℚ} {weight : Kind → ℚ}

def Earns (rs : RuleSet ℚ) (weight : Kind → ℚ) (s : Step) (gain : ℚ) : Prop :=
  ∃ rule, rs.rules[s.rule]? = some rule ∧ rule.Usable ∧
    gain = Cost.total weight rule.pattern - Cost.total weight rule.replacement

def Accounts (rs : RuleSet ℚ) (weight : Kind → ℚ) (steps : List Step) (saved : ℚ) : Prop :=
  ∃ gains, List.Forall₂ (rs.Earns weight) steps gains ∧ gains.sum = saved

namespace Accounts

variable {steps steps' : List Step} {saved saved' : ℚ}

theorem nil : rs.Accounts weight [] 0 :=
  ⟨[], .nil, rfl⟩

theorem single {s : Step} {gain : ℚ} (hEarns : rs.Earns weight s gain) :
    rs.Accounts weight [s] gain :=
  ⟨[gain], .cons hEarns .nil, by simp⟩

theorem append (hL : rs.Accounts weight steps saved) (hR : rs.Accounts weight steps' saved') :
    rs.Accounts weight (steps ++ steps') (saved + saved') := by
  rcases hL with ⟨gains, hGains, rfl⟩
  rcases hR with ⟨gains', hGains', rfl⟩
  exact ⟨gains ++ gains', rel_append hGains hGains', sum_append⟩

theorem located (hAccounts : rs.Accounts weight steps saved) (path : List Nat) :
    rs.Accounts weight (steps.map (Step.located path)) saved := by
  rcases hAccounts with ⟨gains, hGains, hSum⟩
  exact ⟨gains, forall₂_map_left_iff.mpr hGains, hSum⟩

end Accounts

end RuleSet

def Conduct.accounting {t : Task ℚ} (hReg : t.Regular) (weight : Kind → ℚ) :
    hReg.conduct.Refinement where
  Extra a h b := t.rules.Accounts weight h (Cost.total weight a - Cost.total weight b)
  Sure _ _ := True
  body _ _ := by
    rw [sub_self]
    exact .nil
  replace {a b body body' h h' path} hGood hExtra hB hIn hNested _ := by
    have hSaved : Cost.total weight a - Cost.total weight (b.replaceAt path body') =
        (Cost.total weight a - Cost.total weight b) +
          (Cost.total weight body - Cost.total weight body') := by
      have hBoth := Cost.total_replaceAt weight (hReg.workable hGood) hB
        (hReg.workable hIn)
      linarith
    rw [hSaved]
    exact hExtra.append (hNested.located path)
  copy {a b h} hGood hExtra := by
    have hWk := hReg.workable hGood
    rwa [Cost.total_eq_of_essence hWk.copy.intact hWk.intact hWk.intact.essence_copy]
  takeOver {a b b' h} hL _ hR hExtra := by
    have hWk := hReg.workable hR
    have hTaken := hReg.workable (hReg.conduct.takeOver hL hR)
    rwa [Cost.total_eq_of_ops hTaken.intact hTaken.formed hWk.intact hWk.formed rfl]
  unchanged {a b b' h} hGood hExtra hU := by
    have hWk := hReg.workable hGood
    rwa [Cost.total_eq_of_ops (hWk.intact.of_alike hU.1)
      (hWk.formed.of_alike hU.1) hWk.intact hWk.formed hU.1.ops]
  plan _ _ _ := trivial
  fit _ _ := trivial
  carryOut {a b b' h p s} hGood hExtra hFit _ hY := by
    have hAfter := ((hReg.conduct.carryOut hGood hFit).1 s b' hY).1
    rcases Cost.total_carryOut weight (hReg.workable hGood)
      (hReg.workable hAfter) hFit.1 hY with ⟨rule, hRule, hUse, hSaved⟩
    have hSplit : Cost.total weight a - Cost.total weight b' =
        (Cost.total weight a - Cost.total weight b) +
          (Cost.total weight b - Cost.total weight b') := by ring
    rw [hSplit]
    exact hExtra.append (.single ⟨rule, hRule, hUse, by linarith⟩)

---- Batches That Save ----

variable {K : Type} [Scalar K] {t : Task K}

def Run.Gainful (t : Task K) (r : Run K) : Prop :=
  ∀ s ∈ r.log, ∃ gain, t.gains[s.rule]? = some gain ∧ ((0 : Nat) : K) < gain

namespace Conduct

variable {c : Conduct t} {site : Site K} {done : List Step} {r r' : Run K}

theorem Derives.rule_eq {b b' : Graph K} {carried : List (Match × Step)}
    (hDer : c.Derives b carried b') : ∀ entry ∈ carried, entry.2.rule = entry.1.rule := by
  induction hDer with
  | done => exact fun _ hM => nomatch hM
  | step _ _ _ hY _ ih =>
    intro entry hM
    rcases mem_cons.mp hM with rfl | hLater
    · exact RuleSet.rule_of_carryOut hY
    · exact ih entry hLater

theorem Derives.gainful (hLocal : t.cost.isLocal = true) {b b' : Graph K}
    {carried : List (Match × Step)} (hDer : c.Derives b carried b') {path : List Nat}
    {ms : List Match} (hPicked : (carried.map Prod.fst).Sublist (t.batch r path ms)) :
    ∀ s ∈ carried.map Prod.snd, ∃ gain, t.gains[s.rule]? = some gain ∧ ((0 : Nat) : K) < gain := by
  rw [Task.batch, if_pos hLocal] at hPicked
  intro s hM
  rcases mem_map.mp hM with ⟨entry, hEntry, rfl⟩
  rw [hDer.rule_eq entry hEntry]
  exact (Greedy.mem_of_batchOf (hPicked.subset (mem_map_of_mem hEntry))).2

theorem Round.gainful (hLocal : t.cost.isLocal = true) {fresh : Bool} {ms : List Match}
    {next : Option Status ⊕ Bool × List Match} (hRound : c.Round site done fresh ms r next r')
    (hGainful : r.Gainful t) : r'.Gainful t := by
  unfold Run.Gainful at hGainful ⊢
  cases hRound with
  | stop _ hStill => rwa [hStill.log]
  | rescan _ _ hAr => rwa [hAr.log]
  | drop _ hAr => rwa [hAr.log]
  | batch _ _ _ _ _ _ hLog hDer _ _ hPicked =>
    rw [hLog]
    intro s hM
    rcases mem_append.mp hM with hOld | hNew
    · exact hGainful s hOld
    · rcases mem_map.mp hNew with ⟨plain, hPlain, rfl⟩
      exact hDer.gainful hLocal hPicked plain hPlain

theorem ends_runLevels_gainful (hMode : t.settings.mode = .greedy) (hLocal : t.cost.isLocal = true)
    {start : Graph K} (hGood : c.Good start r.log r.root) (hGainful : r.Gainful t)
    {paths : List (List Nat)} (hLadder : r.root.Ladder paths) (fuel : Nat) :
    Ends (Search.runLevels t fuel paths) r (fun _ r' => r'.Gainful t) (fun _ _ => True) := by
  refine ends_runLevels_of (P := Run.Gainful t) (fun hHere _ hLog _ _ s hM => ?_)
    (fun {site r} hAt _ hHere => ?_) hGood hGainful hLadder
  · rw [hLog] at hM
    exact hHere s hM
  · rw [Search.runLevel_greedy hMode]
    refine ends_greedy_of (fun _ _ hAr _ hHere s hM => ?_)
      (fun _ hRound _ => hRound.gainful hLocal) hAt hHere fuel
    rw [hAr.log] at hM
    exact hHere s hM

end Conduct

---- Savings ----

variable {rs : RuleSet ℚ} {weight : Kind → ℚ} {cost : Cost ℚ}

theorem RuleSet.Earns.gain_eq
    (hWeight : ∀ g, cost.eval g = Cost.sumOver (fun kind _ => .ok (weight kind)) g) {s : Step}
    {gain : ℚ} (hEarns : rs.Earns weight s gain) :
    ∃ rule, rs.rules[s.rule]? = some rule ∧ cost.gain rule = .ok gain := by
  rcases hEarns with ⟨rule, hRule, hUse, rfl⟩
  refine ⟨rule, hRule, ?_⟩
  rw [Cost.gain, hWeight, Cost.sumOver_eq_total hUse.pattern hUse.patternFormed, hWeight,
    Cost.sumOver_eq_total hUse.replacement hUse.replacementFormed]
  rfl

/-
  What an optimisation under a local cost has saved is the sum
  of the gains of the rules of its steps, at whatever level
  they were done.  The greedy search does steps with a
  positive gain only.
-/
theorem savings_add_up
    {rules : List (Rule ℚ)}
    (hRules : ∀ rule ∈ rules, rule.Reachable)
    {rs : RuleSet ℚ}
    (hCompile : RuleSet.compile rules = .ok rs)
    {g : Graph ℚ}
    (hReach : g.Reachable)
    (hFormed : g.validate = .ok ())
    (fuel : Nat)
    (clock : Nat → Float)
    {settings : Settings ℚ}
    {cost : Cost ℚ}
    (hCost : settings.cost.resolve = .ok cost)
    (hStandard : cost.Standard)
    (hLocal : cost.isLocal = true)
    {events events' : List (Event ℚ)}
    {o : Outcome ℚ}
    (hDone : Yields (optimize fuel clock rs settings g) events o events') :
    ∃ gains : List ℚ,
      List.Forall₂ (fun s gain => ∃ rule, rs.rules[s.rule]? = some rule ∧
        cost.gain rule = .ok gain) o.log gains ∧
      o.initialCost - o.finalCost = gains.sum ∧
      (settings.mode = .greedy → ∀ gain ∈ gains, 0 < gain) := by
  rcases RuleSet.compiled_of_reachable hRules hCompile with ⟨rfl, hCompiled⟩
  have hWork := Graph.Workable.of_reachable hReach (hReach.intact.validate_ok_iff.mp hFormed)
    (rs.roomy_rational g).levels
  rcases ends_optimize_reports.1 _ _ hDone with ⟨cost', values, stop, r, hCost', hValues, hRun, hReports, -⟩
  obtain rfl := eq_of_ok hCost hCost'
  rcases hStandard.exists_weight hLocal with ⟨weight, hWeight⟩
  let t : Task ℚ := ⟨rs, cost, values, settings, clock⟩
  have hRegular : t.Regular :=
    ⟨(rs.roomy_rational g).spares, hCompiled, hRules, hStandard⟩
  have hLadder := Search.ladder_levelPaths hWork.copy.intact settings.recurse
  -- the steps account for what is saved
  have hStart : (Conduct.accounting hRegular weight).conduct.Good g.copy (Run.start g.copy).log
      (Run.start g.copy).root := by
    refine ⟨hRegular.good_self hWork.copy.self, ?_⟩
    change rs.Accounts weight [] (Cost.total weight g.copy - Cost.total weight g.copy)
    rw [sub_self]
    exact .nil
  rcases (Conduct.ends_runLevels hStart fuel hLadder).1 stop r hRun with ⟨hGood, hAccounts⟩
  have hResult := hRegular.workable hGood
  rcases hAccounts with ⟨gains, hEarned, hSum⟩
  have hInitial := hReports.initial
  have hFinal := hReports.final
  rw [hWeight, Cost.sumOver_eq_total hWork.copy.intact hWork.copy.formed] at hInitial
  change cost.eval r.root = _ at hFinal
  rw [hWeight, Cost.sumOver_eq_total hResult.intact hResult.formed] at hFinal
  rw [hReports.log]
  have hGains := hEarned.imp (fun _ _ hEarns => hEarns.gain_eq hWeight)
  refine ⟨gains, hGains, ?_, fun hMode => ?_⟩
  · rw [← Except.ok.inj hInitial, ← Except.ok.inj hFinal, hSum]
  · have hGainful := (Conduct.ends_runLevels_gainful (t := t) hMode hLocal hStart
      (fun _ hMem => nomatch hMem) hLadder fuel).1 stop r hRun
    rw [ruleGains, if_pos hLocal] at hValues
    have hPositive : List.Forall₂ (fun gain _ => 0 < gain ∧ True) gains r.log := by
      refine (((forall₂_and_left _ _).mpr ⟨hGainful, hGains⟩).imp ?_).flip
      rintro s gain ⟨⟨value, hValue, hLess⟩, rule, hRule, hGain⟩
      rcases getElem?_of_mapM hValues hRule with ⟨value', hValue', hGain'⟩
      obtain rfl := eq_of_some hValue hValue'
      obtain rfl := eq_of_ok hGain hGain'
      exact ⟨by simpa [Nat.cast] using hLess, trivial⟩
    exact ((forall₂_and_left _ _).mp hPositive).1

/- Two steps that take out two inversions each save four gates. -/
theorem savings_add_up_inversions :
    ∃ (rule : Rule ℚ) (rs : RuleSet ℚ) (g : Graph ℚ) (o : Outcome ℚ) (events : List (Event ℚ)),
      inversionTask = .ok (rule, rs, g) ∧
      Yields (optimize 8 (fun _ => 0) rs (.upTo 3 .greedy) g) [] o events ∧
      o.log.length = 2 ∧ o.initialCost - o.finalCost = 4 ∧
      ∃ gains : List ℚ,
        List.Forall₂ (fun s gain => ∃ rule, rs.rules[s.rule]? = some rule ∧
          Cost.gates.gain rule = .ok gain) o.log gains ∧
        o.initialCost - o.finalCost = gains.sum ∧ ∀ gain ∈ gains, 0 < gain := by
  have hCheck : (inversionRun (.upTo 3 .greedy)).toOption.any
      (fun o => decide (o.log.length = 2 ∧ o.initialCost - o.finalCost = 4)) = true := by cbv
  rcases exists_inversionRun hCheck with
    ⟨rule, rs, g, o, events, hTask, hRules, hCompile, hReach, hValid, hDone, hOut⟩
  rcases of_decide_eq_true hOut with ⟨hLog, hSaved⟩
  rcases savings_add_up hRules hCompile hReach hValid 8 (fun _ => 0) rfl .gates rfl hDone with
    ⟨gains, hGains, hSum, hPositive⟩
  exact ⟨rule, rs, g, o, events, hTask, hDone, hLog, hSaved, gains, hGains, hSum, hPositive rfl⟩

end CircuitGraph
