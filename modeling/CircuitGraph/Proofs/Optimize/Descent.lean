import CircuitGraph.Proofs.Optimize.Accounting
import CircuitGraph.Proofs.Optimize.Incremental
import CircuitGraph.Proofs.Optimize.Replay
import CircuitGraph.Proofs.Rounding

/-
  Greedy searches go down.

  Under a cost that counts something, each batch makes the
  whole graph cheaper by one at least for each of its steps.

  Main declarations:

  * Cost.Counter: the costs that count something
  * Task.Regular.count_batch_le: what a batch saves
  * greedy_optimization_descends: what a search saves, and
    that it comes to an end
-/

---- Costs That Count ----

namespace CircuitGraph

open List CircuitGraph.Graph

variable {K : Type} {carried : List (Match × Step)} {ms : List Match} {bound : Nat}

namespace Cost

/- The costs of the library that count something. -/
inductive Counter where
  | gates
  | twoQubit
  | depth

namespace Counter

variable {counter : Counter} {g g' : Graph K}

def isCounted : Counter → Kind → Bool
  | gates, kind => kind.isGate
  | twoQubit, kind => 2 ≤ kind.qubits
  | depth, _ => false

def weight (counter : Counter) (kind : Kind) : ℕ :=
  if counter.isCounted kind then 1 else 0

def count (counter : Counter) (g : Graph K) : ℕ :=
  match counter with
  | depth => g.depth.toOption.getD 0
  | gates => total (weight gates) g
  | twoQubit => total (weight twoQubit) g

theorem count_eq_of_essence (counter : Counter) (hI : g.Intact) (hI' : g'.Intact)
    (hEss : g.essence = g'.essence) :
    counter.count g = counter.count g' := by
  cases counter with
  | gates => exact total_eq_of_essence hI hI' hEss
  | twoQubit => exact total_eq_of_essence hI hI' hEss
  | depth => rw [count, count, ← hI.depth_essence, hEss, hI'.depth_essence]

variable [Scalar K]

def cost : Counter → Cost K
  | gates => .gates
  | twoQubit => .twoQubit
  | depth => .depth

theorem standard (counter : Counter) : (counter.cost : Cost K).Standard := by
  cases counter with
  | gates => exact .gates
  | twoQubit => exact .twoQubit
  | depth => exact .depth

section

variable (hLocal : (counter.cost : Cost K).isLocal = true)

include hLocal

theorem count_eq_total (g : Graph K) : counter.count g = total counter.weight g := by
  cases counter with
  | gates => rfl
  | twoQubit => rfl
  | depth => exact nomatch hLocal

theorem eval_eq_sumOver (g : Graph K) :
    counter.cost.eval g = sumOver (fun kind _ => .ok ((counter.weight kind : ℕ) : K)) g := by
  have hUnit : ∀ kind, (unit (counter.isCounted kind) : K) = ((counter.weight kind : ℕ) : K) := by
    intro kind
    rw [unit, weight]
    split <;> rfl
  have hWeights := congrArg (sumOver · g) (funext (fun kind =>
    funext (fun _ : List Param => congrArg Except.ok (hUnit kind))))
  cases counter with
  | gates => exact hWeights
  | twoQubit => exact hWeights
  | depth => exact absurd hLocal Bool.false_ne_true

end

theorem eval_eq_count_of_global (hGlobal : ¬ (counter.cost : Cost K).isLocal = true)
    (hI : g.Intact) (hF : g.WellFormed) : counter.cost.eval g = .ok (counter.count g : K) := by
  cases counter with
  | gates => exact absurd rfl hGlobal
  | twoQubit => exact absurd rfl hGlobal
  | depth =>
    rcases hI.exists_depth hF with ⟨d, hDepth⟩
    refine bind_eq_ok_iff.mpr ⟨d, hDepth, ?_⟩
    rw [count, hDepth]
    rfl

theorem eval_eq_count (counter : Counter) (hExact : Scalar.Exact K bound) (hI : g.Intact)
    (hF : g.WellFormed) (hSmall : counter.count g < bound) : counter.cost.eval g = .ok (counter.count g : K) := by
  have hEmbeds : Embeds (fun n : ℕ => (n : K)) (· < bound) :=
    ⟨rfl, hExact.add, fun a b => lt_of_le_of_lt (Nat.le_add_right a b)⟩
  by_cases hLocal : (counter.cost : Cost K).isLocal = true
  · rw [count_eq_total hLocal g] at hSmall ⊢
    rw [eval_eq_sumOver hLocal g, hEmbeds.sumOver_eq hI hF hSmall]
  · exact eval_eq_count_of_global hLocal hI hF

end Counter

end Cost

---- Batches under Local Costs ----

variable [Scalar K]

/- Whether the gains of a task are those of a cost that counts, in numbers that are exact. -/
structure Task.Tallied (t : Task K) (counter : Cost.Counter) (bound : Nat) : Prop where
  cost : t.cost = counter.cost
  numbers : Scalar.Exact K bound
  rules : ∀ rule ∈ t.rules.rules,
    counter.count rule.pattern < bound ∧ counter.count rule.replacement < bound
  gains : ruleGains t.cost t.rules = .ok t.gains

section

variable {room : Nat → Nat → Prop} {t : Task K} {counter : Cost.Counter} {a b b' : Graph K}

theorem Task.Tallied.count_lt (hTallied : t.Tallied counter bound)
    (hLocal : t.cost.isLocal = true) {i : Nat} {gain : K} (hGain : t.gains[i]? = some gain)
    (hPositive : ((0 : Nat) : K) < gain) {rule : Rule K} (hRule : t.rules.rules[i]? = some rule)
    (hUse : rule.Usable) : counter.count rule.replacement < counter.count rule.pattern := by
  have hGains := hTallied.gains
  rw [ruleGains, if_pos hLocal] at hGains
  rcases getElem?_of_mapM hGains hRule with ⟨gain', hGain', hOf⟩
  obtain rfl := eq_of_some hGain hGain'
  rcases hTallied.rules rule (mem_of_getElem? hRule) with ⟨hPattern, hReplacement⟩
  rw [Cost.gain, hTallied.cost,
    Cost.Counter.eval_eq_count _ hTallied.numbers hUse.pattern hUse.patternFormed hPattern,
    Cost.Counter.eval_eq_count _ hTallied.numbers hUse.replacement hUse.replacementFormed
      hReplacement] at hOf
  obtain rfl := Except.ok.inj hOf
  exact hTallied.numbers.sign _ _ hPositive

variable [Scalar.Ordered K]

theorem Cost.Counter.count_replaceAt_le (hLocal : (counter.cost : Cost K).isLocal = true)
    {g body : Graph K} (hWk : a.Workable room g) {path : List Nat}
    (hB : g.bodyAt? path = some body) (hIn : body.Workable room b) (hIn' : body.Workable room b')
    {k : ℕ} (hLess : counter.count b' + k ≤ counter.count b) :
    counter.count (g.replaceAt path b') + k ≤ counter.count (g.replaceAt path b) := by
  simp only [count_eq_total hLocal] at hLess ⊢
  have hFirst := total_replaceAt counter.weight hWk hB hIn
  have hSecond := total_replaceAt counter.weight hWk hB hIn'
  omega

theorem Task.Regular.count_derives_le (hReg : t.Regular) (hTallied : t.Tallied counter bound)
    (hLocal : t.cost.isLocal = true) (hDer : hReg.conduct.Derives b carried b') (hI : b.Intact)
    (hGainful : ∀ s ∈ carried.map Prod.snd,
      ∃ gain, t.gains[s.rule]? = some gain ∧ ((0 : Nat) : K) < gain) :
    counter.count b' + carried.length ≤ counter.count b := by
  have hCounted := hTallied.cost ▸ hLocal
  induction hDer with
  | done hU =>
    have hSame := essence_of_alike hU.1 hI.sound.unique
    rw [length_nil, Nat.add_zero, Cost.Counter.count_eq_of_essence _ hI (hI.of_alike hU.1) hSame]
  | @step b b₁ b₂ b' p s carried hU hGood hFit hY _ ih =>
    rcases hGood with ⟨a, h, hGood⟩
    have hWk₁ := hReg.workable hGood
    have hWk₂ := hWk₁.carryOut hReg.spares hReg.rules hFit.1.ready hY
    have hSame := Cost.Counter.count_eq_of_essence counter hI hWk₁.intact
      (essence_of_alike hU.1 hI.sound.unique)
    have hRest := ih hWk₂.intact (fun s' hM => hGainful s' (mem_cons_of_mem _ hM))
    rcases Cost.total_carryOut counter.weight hWk₁ hWk₂ hFit.1 hY with
      ⟨rule, hRule, hUse, hSaved⟩
    rcases hGainful s mem_cons_self with ⟨gain, hGain, hPositive⟩
    have hLess := hTallied.count_lt hLocal hGain hPositive hRule hUse
    simp only [← Cost.Counter.count_eq_total hCounted] at hSaved
    rw [length_cons]
    omega

end

---- Trials ----

variable {t : Task K}

theorem Task.Regular.essence_of_trial [Scalar.Ordered K] (hReg : t.Regular) {a b b' : Graph K}
    (hWk : a.Workable t.rules.Room b) {m : Match} {s step : Step} {trial : Graph K}
    (hPerf : t.rules.Performs b [(m, s)] b')
    (hTrial : Yields (t.rules.apply m) b.copy step trial) :
    a.Workable t.rules.Room trial ∧ b'.essence = trial.essence := by
  have hFnd : ∃ rule f, t.rules.Finds b m rule f := by
    cases hPerf with
    | step hU hCar _ =>
      rcases hCar.found with ⟨rule, f, hFinds⟩
      exact ⟨rule, f, hFinds.of_alike hU.1.symm⟩
  rcases hReg.exists_trial hWk hFnd with
    ⟨step', trial', hAgain, hWk', p, b₁, hRer, rfl, hCar⟩
  obtain ⟨rfl, rfl⟩ := hTrial.unique hAgain
  have hSea := hWk.searchable
  have hSea' := hWk.copy.searchable
  have hCopy : t.rules.Performs b.copy [(p.found, step)] trial :=
    .step hRer.unchanged hCar (.done (.refl _))
  exact ⟨hWk', (hCopy.agree hPerf hSea'.sound hSea'.acyclic hSea.sound
    hSea.acyclic hWk.intact.essence_copy.symm rfl).1⟩

---- Rounds ----

namespace Task.Regular

section

variable [Scalar.Ordered K] (hReg : t.Regular)

end

variable [Scalar.Ordered K] (hReg : t.Regular) {counter : Cost.Counter}
  (hTallied : t.Tallied counter bound) {site : Site K} {done done' : List Step} {r r' : Run K}
  (hAt : hReg.conduct.At site done r) (hHere : hReg.conduct.At site done' r')
  (hDer : hReg.conduct.Derives r.level carried r'.level)
  (hPicked : (carried.map Prod.fst).Sublist (t.batch r site.path ms))

include hTallied hAt hHere hDer hPicked

/- Under a local cost, the whole graph becomes cheaper by what the gains of the rules tell. -/
theorem count_local_le (hLocal : t.cost.isLocal = true) :
    counter.count (r'.root.replaceAt site.path r'.level) + carried.length ≤
      counter.count (r.root.replaceAt site.path r.level) := by
  have hLevel := hReg.workable hAt.level
  rw [hAt.root, hHere.root]
  exact Cost.Counter.count_replaceAt_le (hTallied.cost ▸ hLocal) (hReg.workable hAt.around)
    hAt.place hLevel (hReg.workable hHere.level)
    (hReg.count_derives_le hTallied hLocal hDer hLevel.intact (hDer.gainful hLocal hPicked))

/- Under a cost of whole graphs, it becomes cheaper by the one step that was tried out. -/
theorem count_global_le (hGlobal : ¬ t.cost.isLocal = true) (hSome : carried ≠ []) :
    counter.count (r'.root.replaceAt site.path r'.level) + carried.length ≤
      counter.count (r.root.replaceAt site.path r.level) := by
  have hAr := hReg.workable hAt.around
  have hLevel := hReg.workable hAt.level
  have hLen : carried.length = 1 := by
    have hLe := hPicked.length_le.trans (Task.length_batch_le hGlobal r site.path ms)
    have hPos := length_pos_iff.mpr hSome
    rw [length_map] at hLe
    omega
  rcases length_eq_one_iff.mp hLen with ⟨⟨m, s⟩, rfl⟩
  rcases Task.trial_of_mem_batch hGlobal (hPicked.subset mem_cons_self) with
    ⟨-, current, gain, hCurrent, hGains⟩
  rcases Task.trial_eq_some_iff.mp hGains with ⟨step, trial, value, hTrial, hValue, hLess, -⟩
  rcases hReg.essence_of_trial hLevel (hReg.performs hDer) hTrial with
    ⟨hTrialWork, hEss⟩
  have hBef := hAr.replaceAt hAt.place hLevel
  have hAfter := hAr.replaceAt hAt.place (hReg.workable hHere.level)
  have hTried := hAr.replaceAt hAt.place hTrialWork
  have hSame : counter.count (site.root.replaceAt site.path r'.level) =
      counter.count (site.root.replaceAt site.path trial) := by
    refine Cost.Counter.count_eq_of_essence _ hAfter.intact hTried.intact ?_
    rw [hAr.intact.essence_replaceAt, hAr.intact.essence_replaceAt, hEss]
  rw [hTallied.cost] at hGlobal hCurrent hValue
  rw [hAt.root] at hCurrent hValue ⊢
  rw [hHere.root, hSame]
  obtain rfl := eq_of_ok (Cost.Counter.eval_eq_count_of_global hGlobal hBef.intact hBef.formed)
    hCurrent
  obtain rfl := eq_of_ok (Cost.Counter.eval_eq_count_of_global hGlobal hTried.intact
    hTried.formed) hValue
  exact Nat.succ_le_iff.mpr (hTallied.numbers.sign _ _ hLess)

theorem count_batch_le (hSome : carried ≠ []) :
    counter.count (r'.root.replaceAt site.path r'.level) + carried.length ≤
      counter.count (r.root.replaceAt site.path r.level) := by
  by_cases hLocal : t.cost.isLocal = true
  · exact hReg.count_local_le hTallied hAt hHere hDer hPicked hLocal
  · exact hReg.count_global_le hTallied hAt hHere hDer hPicked hLocal hSome

end Task.Regular

---- Courses of Batches ----

/-
  Batches of steps that lead from a graph to another one.  Each
  batch comes with the count for the graph that it leads to, and
  makes that smaller by one at least for each of its steps.
-/
inductive RuleSet.Descends (rs : RuleSet K) (counter : Cost.Counter) (g : Graph K) :
    List (List Step × Nat) → Graph K → Prop where
  | start {g' : Graph K} (workable : g.Workable rs.Room g') (same : g'.essence = g.essence) :
      Descends rs counter g [] g'
  | batch {batches : List (List Step × Nat)} {g₁ g₂ : Graph K} {steps : List Step}
      (earlier : Descends rs counter g batches g₁) (effective : steps ≠ [])
      (workable : g.Workable rs.Room g₂) (leads : rs.Derives g₁ steps g₂)
      (costs : counter.cost.eval g₂ = .ok (counter.count g₂ : K))
      (cheaper : counter.count g₂ + steps.length ≤ counter.count g₁) :
      Descends rs counter g (batches ++ [(steps, counter.count g₂)]) g₂

namespace RuleSet.Descends

variable {rs : RuleSet K} {counter : Cost.Counter} {g g₁ g₂ : Graph K}
  {batches : List (List Step × Nat)} (hDescends : rs.Descends counter g batches g₁)

include hDescends

theorem workable : g.Workable rs.Room g₁ := by
  cases hDescends <;> assumption

theorem of_essence [Scalar.Ordered K] (hWk : g.Workable rs.Room g₂) (hEss : g₁.essence = g₂.essence) :
    rs.Descends counter g batches g₂ := by
  have hWk₁ := hDescends.workable
  have hCount := Cost.Counter.count_eq_of_essence counter hWk₁.intact hWk.intact hEss
  cases hDescends with
  | start _ hSame => exact .start hWk (hEss.symm.trans hSame)
  | batch hEarlier hSome _ hLeads hCosts hLess =>
    rw [counter.standard.eval_eq hWk₁.intact hWk.intact hEss, hCount] at hCosts
    rw [hCount] at hLess ⊢
    exact .batch hEarlier hSome hWk (hLeads.of_essence hEss) hCosts hLess

theorem length_le (hWk : g.Workable rs.Room g) :
    batches.length ≤ (batches.flatMap Prod.fst).length ∧
      (batches.flatMap Prod.fst).length + counter.count g₁ ≤ counter.count g := by
  induction hDescends with
  | start hWk' hSame =>
    simp [Cost.Counter.count_eq_of_essence counter hWk'.intact hWk.intact hSame]
  | @batch batches g₁ g₂ steps _ hSome _ _ _ hLess ih =>
    rcases ih with ⟨hFewer, hSaved⟩
    have hPos := length_pos_iff.mpr hSome
    simp only [length_append, length_singleton, flatMap_append, flatMap_cons,
      flatMap_nil, append_nil]
    omega

end RuleSet.Descends

def Run.Descends (t : Task K) (counter : Cost.Counter) (g : Graph K) (r : Run K)
    (whole : Graph K) : Prop :=
  ∃ batches : List (List Step × Nat), t.rules.Descends counter g batches whole ∧
    batches.length = r.iterations ∧ batches.flatMap Prod.fst = r.log ∧
    (t.settings.verbosity ≠ 0 →
      r.metrics.map Metrics.cost = batches.map (fun batch => (batch.2 : K)))

section

variable [Scalar.Ordered K]

namespace Task.Regular

variable (hReg : t.Regular) {counter : Cost.Counter} {g : Graph K} {site : Site K}
  {done done' : List Step} {r r' : Run K}

theorem essence_whole (hAt : hReg.conduct.At site done r)
    (hHere : hReg.conduct.At site done' r') (hU : r.level.Unchanged r'.level) :
    (r.root.replaceAt site.path r.level).essence = (r'.root.replaceAt site.path r'.level).essence := by
  have hI := (hReg.workable hAt.around).intact
  have hLevel := (hReg.workable hAt.level).intact
  rw [hAt.root, hHere.root, hI.essence_replaceAt, hI.essence_replaceAt,
    essence_of_alike hU.1 hLevel.sound.unique]

section

variable (hTallied : t.Tallied counter bound)

include hTallied

variable (hMode : t.settings.mode = .greedy)

include hMode

/- The count for the whole graph is a measure of what is left to do, however large it is. -/
theorem finite_of_tallied : hReg.conduct.Finite where
  allowed := by
    rintro ⟨hFault, -⟩
    exact nomatch hFault
  greedy _ site := by
    refine ⟨fun r => counter.count (r.root.replaceAt site.path r.level), ?_, ?_⟩
    · intro done r r' hAt hHere _ hU
      exact (Cost.Counter.count_eq_of_essence _ (hReg.workable hAt.whole).intact
        (hReg.workable hHere.whole).intact (hReg.essence_whole hAt hHere hU)).ge
    · intro done fresh ms next r r' hAt hRound hCounted
      cases hRound with
      | rescan _ _ hAr => exact absurd (hAr.iterations.symm.trans hCounted) (by omega)
      | drop _ hAr => exact absurd (hAr.iterations.symm.trans hCounted) (by omega)
      | batch hSome _ _ _ _ hHere _ hDer _ _ hPicked =>
        have hLess := hReg.count_batch_le hTallied hAt hHere hDer hPicked hSome
        have hPos := length_pos_iff.mpr hSome
        omega
  bounded hBounded := nomatch hMode.symm.trans hBounded

end

end Task.Regular

---- Termination ----

theorem exists_optimized_of_tallied {rs : RuleSet K} (hRoomy : rs.Spares rs.Room)
    (hC : rs.Compiled) (hRules : ∀ rule ∈ rs.rules, rule.Reachable) {g : Graph K}
    (hWk : g.Workable rs.Room g) {clock : Nat → Float} {settings : Settings K}
    (hMode : settings.mode = .greedy) {counter : Cost.Counter}
    (hCost : settings.cost.resolve = .ok counter.cost) (hExact : Scalar.Exact K bound)
    (hSmall : ∀ rule ∈ rs.rules,
      counter.count rule.pattern < bound ∧ counter.count rule.replacement < bound)
    (events : List (Event K)) :
    ∃ n o events', g.Workable rs.Room o.graph ∧
      ∀ fuel, n ≤ fuel → Yields (optimize fuel clock rs settings g) events o events' := by
  refine exists_optimized_of_settles hRoomy hC hRules hWk hCost counter.standard
    (fun gains hGains => ?_) (.inl hMode) events
  have hReg : Task.Regular ⟨rs, counter.cost, gains, settings, clock⟩ :=
    ⟨hRoomy, hC, hRules, counter.standard⟩
  exact settles_runLevels_workable
    (hReg.finite_of_tallied ⟨rfl, hExact, hSmall, hGains⟩ hMode) hWk (hReg.good_copy hWk)

end

end CircuitGraph
