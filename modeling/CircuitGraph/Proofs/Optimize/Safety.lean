import CircuitGraph.Proofs.Optimize.Room
import CircuitGraph.Proofs.Optimize.Termination
import CircuitGraph.Proofs.Simulation
import CircuitGraph.Proofs.Substitution.Success

/-
  Optimisation does not fail.

  Every match that is found can be applied, and what comes of
  it is well-formed and has the same boundary.
-/

---- Fitting Graphs ----

namespace CircuitGraph

namespace Graph

variable {K : Type} [Scalar K]

/- What is known of each level of a graph that is searched. -/
def Fitting (room : Nat → Nat → Prop) (g : Graph K) : Prop :=
  (Scalar.Counts K g.nextId → g.Kept) ∧ room g.nextId g.ops.length

/-
  Whether a graph is well-formed and ready to be searched, with
  the boundary of another one and room for ids at every level.
-/
structure Workable (room : Nat → Nat → Prop) (a b : Graph K) : Prop where
  levels : Everywhere (fun g => g.Sound ∧ g.Fitting room) b
  formed : b.WellFormed
  boundary : b.signature = a.signature

namespace Workable

variable {room : Nat → Nat → Prop} {rs : RuleSet K} {a b b' body body' : Graph K} {path : List Nat}

theorem intact (hWk : a.Workable room b) : b.Intact :=
  hWk.levels.intact

theorem searchable_of (hWk : a.Workable room b) (hCnt : Scalar.Counts K b.nextId) :
    b.Searchable :=
  ⟨hWk.intact.sound, hWk.formed.acyclic, hCnt, hWk.levels.here.2.1 hCnt⟩

theorem searchable (hWk : a.Workable rs.Room b) : b.Searchable :=
  hWk.searchable_of hWk.levels.here.2.2.counts

theorem bodyAt? (hWk : a.Workable room b) (hB : b.bodyAt? path = some body) :
    body.Workable room body :=
  ⟨hWk.levels.bodyAt? hB, hWk.formed.bodyAt? hB, rfl⟩

theorem self (hWk : a.Workable room b) : b.Workable room b :=
  ⟨hWk.levels, hWk.formed, rfl⟩

theorem nextId_copy (hWk : a.Workable room b) : b.copy.nextId = b.nextId := by
  rw [hWk.intact.sound.copy_eq]

theorem everywhere_fitting {g : Graph K}
    (hKept : Everywhere (fun g => g.Sound ∧ (Scalar.Counts K g.nextId → g.Kept)) g)
    (hRoom : Everywhere (fun h => room h.nextId h.ops.length) g) :
    Everywhere (fun g => g.Sound ∧ g.Fitting room) g :=
  (hKept.and hRoom).mono (fun _ hBoth => ⟨hBoth.1.1, hBoth.1.2, hBoth.2⟩)

variable [Scalar.Ordered K]

theorem fitting_level (room : Nat → Nat → Prop) (g : Graph K) (ops : List (Node (Graph K)))
    (index : WireIndex) (version : Nat) (hPerm : (ops.map Node.id).Perm (g.ops.map Node.id))
    (hFit : g.Fitting room) :
    Fitting room { g with ops := ops, index := index, version := version } := by
  refine ⟨lasting_kept.level g ops index version hPerm hFit.1, ?_⟩
  have hLength : ops.length = g.ops.length := by simpa using hPerm.length_eq
  simpa only [hLength] using hFit.2

theorem of_reachable (hReach : a.Reachable) (hF : a.WellFormed)
    (hRoom : Everywhere (fun h => room h.nextId h.ops.length) a) : a.Workable room a :=
  ⟨everywhere_fitting (hReach.everywhere lasting_kept) hRoom, hF, rfl⟩

theorem of_reranked (hWk : a.Workable room b) (hRer : b.Reranked b') : a.Workable room b' := by
  have hA := hRer.unchanged.1
  have hKept := lasting_kept.of_reranked
    (hWk.levels.mono (fun _ hHere => ⟨hHere.1, hHere.2.1⟩)) hRer
  refine ⟨.intro ⟨hKept.here.1, hKept.here.2, ?_⟩ ?_, hWk.formed.of_alike hA,
    hA.signature.trans hWk.boundary⟩
  · rw [hA.nextId, hA.ops]
    exact hWk.levels.here.2.2
  · rw [hA.ops]
    exact fun _ hN _ hB => hWk.levels.body hN hB

theorem copy (hWk : a.Workable room b) : a.Workable room b.copy :=
  ⟨hWk.levels.copy (fitting_level room), hWk.intact.wellFormed_copy hWk.formed,
    (signature_copy b).trans hWk.boundary⟩

theorem replaceAt (hWk : a.Workable room b) (hB : b.bodyAt? path = some body)
    (hIn : body.Workable room body') : a.Workable room (b.replaceAt path body') where
  levels := hWk.levels.replaceAt (fitting_level room) hB hIn.levels hIn.boundary
  formed := hWk.intact.wellFormed_replaceAt hWk.formed hB hIn.boundary hIn.formed
  boundary := (signature_replaceAt hB hIn.boundary).trans hWk.boundary

theorem takeOver (hL : a.Workable room b) (hR : a.Workable room b') (hLe : b.nextId ≤ b'.nextId) :
    a.Workable room (b.takeOver b') := by
  have hSig := hR.boundary.trans hL.boundary.symm
  have hMir := mirrors_takeOver hSig
  have hRoom : room (b.takeOver b').nextId (b.takeOver b').ops.length := by
    have hNext : (b.takeOver b').nextId = b'.nextId := Nat.max_eq_right hLe
    rw [hNext]
    exact hR.levels.here.2.2
  have hS := hMir.sound related_eq_signature hR.intact.sound
  refine ⟨.intro ⟨hS, lasting_kept.takeOver b b', hRoom⟩
    (fun _ hN _ hIn => hR.levels.body hN hIn), ?_, hMir.signature.trans hR.boundary⟩
  refine hMir.wellFormed related_eq_signature hR.intact.sound.unique hR.formed ?_
  rintro node hN b _ hB rfl
  exact hR.formed.body hN hB

theorem carryOut (hSpares : rs.Spares room) (hRules : ∀ rule ∈ rs.rules, rule.Reachable)
    (hWk : a.Workable room b) {p : Plan} (hReady : p.Ready rs b) {step : Step}
    (hY : Yields (rs.carryOut p) b step b') : a.Workable room b' := by
  rcases hReady.result_of_carryOut hWk.intact.sound hWk.formed.acyclic hY with
    ⟨s, rfl, hRule, hRes, hAcy, k, hBef, hAfter, hNext⟩
  have hState : (outcome (rs.carryOut p) s.host).2 = b' := congrArg Prod.snd hY
  have hChg : Changed (Everywhere (fun g => g.Sound ∧ g.Fitting room)) s.host b' := by
    rw [← hState]
    refine RuleSet.keeps_carryOut ?_ p s.host ⟨hWk.intact.sound, fun _ hN _ hB =>
      hWk.levels.body hN hB, .refl⟩
    intro rule hRule node hN inner hIn
    refine Everywhere.copy (fitting_level room) ?_
    exact everywhere_fitting (((hRules rule hRule).2.everywhere lasting_kept).body hN hIn)
      (hSpares.bodies rule hRule node hN inner hIn)
  have hKept := lasting_kept.changes ⟨hWk.intact.sound, hWk.levels.here.2.1⟩ hChg.changes
  have hRoom := hWk.levels.here.2.2
  rw [hBef] at hRoom
  refine ⟨.intro ⟨hKept.1, hKept.2, ?_⟩ hChg.bodies, hRes.wellFormed hWk.formed hAcy, ?_⟩
  · rw [hNext, hAfter]
    exact hSpares.step s.rule hRule _ k hRoom
  · have hSame : b'.signature = s.host.signature := by
      rw [signature, signature, hRes.inputs, hRes.outputs]
    exact hSame.trans hWk.boundary

end Workable

end Graph

---- Searches ----

variable {K : Type}

/- Whether ids were only given out by some steps. -/
def Graph.Ages (a : Graph K) (h : List Step) (b : Graph K) : Prop :=
  a.nextId ≤ b.nextId ∧ (h = [] → b.nextId = a.nextId)

theorem Graph.Ages.replaceAt {a b body body' : Graph K} {h h' : List Step} {path : List Nat}
    (hAges : a.Ages h b) (hB : b.bodyAt? path = some body) (hIn : body.Ages h' body') :
    a.Ages (h ++ h'.map (Step.located path)) (b.replaceAt path body') := by
  cases path with
  | nil =>
    obtain rfl : b = body := Option.some.inj hB
    refine ⟨hAges.1.trans hIn.1, fun hNone => ?_⟩
    rw [List.append_eq_nil_iff, List.map_eq_nil_iff] at hNone
    exact (hIn.2 hNone.2).trans (hAges.2 hNone.1)
  | cons n path => exact ⟨hAges.1, fun hNone => hAges.2 (List.append_eq_nil_iff.mp hNone).1⟩

variable [Scalar K] [Scalar.Ordered K]

theorem Graph.Workable.reranked_ages {room : Nat → Nat → Prop} {a b b' : Graph K} {h : List Step}
    (hGood : a.Workable room b ∧ a.Ages h b) (hRer : b.Reranked b') :
    a.Workable room b' ∧ a.Ages h b' := by
  refine ⟨hGood.1.of_reranked hRer, ?_⟩
  rw [Ages, hRer.unchanged.1.nextId]
  exact hGood.2

/- All graphs of a search stay workable, so that nothing but costs and the queue can fail. -/
def Conduct.working (t : Task K) (hSpares : t.rules.Spares t.rules.Room) (hC : t.rules.Compiled)
    (hRules : ∀ rule ∈ t.rules.rules, rule.Reachable) (Allowed : Fault → Prop)
    (hCost : ∀ {a b : Graph K} {fault : Fault}, a.Workable t.rules.Room b →
      t.cost.eval b = .error fault → Allowed fault)
    (hQueue : t.settings.mode = .bounded → t.settings.queueKept = none → Allowed .wrongType) :
    Conduct t where
  Good a h b := a.Workable t.rules.Room b ∧ a.Ages h b
  Known m := ∃ rule f, t.rules.Names m rule f
  Fit p g := p.Secure t.rules g
  Allowed := Allowed
  body hGood hB := ⟨hGood.1.bodyAt? hB, Nat.le_refl _, fun _ => rfl⟩
  replace hGood hB hIn _ := ⟨hGood.1.replaceAt hB hIn.1, hGood.2.replaceAt hB hIn.2⟩
  copy hGood := by
    refine ⟨hGood.1.copy, ?_⟩
    rw [Graph.Ages, hGood.1.nextId_copy]
    exact hGood.2
  takeOver {a b b' h} hL hR := by
    have hSame := hL.2.2 rfl
    have hNext : (b.takeOver b').nextId = b'.nextId := Nat.max_eq_right (hSame.trans_le hR.2.1)
    refine ⟨hL.1.takeOver hR.1 (hSame.trans_le hR.2.1), ?_⟩
    rw [Graph.Ages, hNext]
    exact hR.2
  find {a b _} among hGood := by
    have hSea := hGood.1.searchable
    rcases hC.yields_findMatches hSea among with ⟨b', hFnd, -, -⟩
    refine ⟨fun ms b'' hY => ?_, fun fault b'' hFails => absurd hFails hFnd.not_fails⟩
    obtain ⟨rfl, rfl⟩ := hY.unique hFnd
    refine ⟨Graph.Workable.reranked_ages hGood ((Reads.findMatches t.rules among).reranked hFnd), ?_⟩
    intro m hM
    rcases List.mem_flatMap.mp hM with ⟨anchor, -, hM⟩
    rcases (hC.finds_of_mem hSea.sound hM).2.2 with ⟨rule, f, hFinds⟩
    exact ⟨rule, f, hFinds.toNames⟩
  plan {a b _ m} hGood hKnown := by
    rcases hKnown with ⟨rule, f, hNames⟩
    rcases hC.plan_cases hGood.1.searchable hNames with
      ⟨b', -, -, ⟨-, p, hPlan, hFnd, hSecure⟩ | ⟨-, hStale⟩⟩
    · refine ⟨fun p' b'' hY => ?_, fun fault b'' hFails => absurd hFails hPlan.not_fails⟩
      obtain ⟨rfl, rfl⟩ := hY.unique hPlan
      exact ⟨Graph.Workable.reranked_ages hGood ((Reads.plan t.rules m).reranked hPlan), hFnd, hSecure.version,
        hSecure⟩
    · refine ⟨fun p' b'' hY => absurd hStale hY.not_fails, fun fault b'' hFails => ?_⟩
      obtain ⟨rfl, rfl⟩ : fault = .stale m.rule m.root ∧ b'' = b' := by
        simpa [Fails] using hFails.symm.trans hStale
      exact ⟨Graph.Workable.reranked_ages hGood ((Reads.plan t.rules m).reranked_of_fails hStale),
        .inl ⟨_, _, rfl⟩⟩
  fit hSecure hU := hSecure.of_unchanged hU
  carryOut hGood hSecure := by
    rcases hSecure.exists_carryOut hGood.1.intact.sound hGood.1.formed.acyclic with
      ⟨s, b', -, -, -, -, hDone⟩
    refine ⟨fun step b'' hY => ?_, fun fault b'' hFails => absurd hFails hDone.not_fails⟩
    rcases hSecure.ready.result_of_carryOut hGood.1.intact.sound hGood.1.formed.acyclic hY with
      ⟨s, -, -, -, -, k, -, -, hNext⟩
    exact ⟨⟨hGood.1.carryOut hSpares hRules hSecure.ready hY,
      hGood.2.1.trans (hNext ▸ Nat.le_add_right _ _), fun hNone => by simp at hNone⟩,
      hSecure.ready.version_lt hGood.1.intact.sound hGood.1.formed.acyclic hY⟩
  cost hGood := hCost hGood.1
  depth hGood hFault := by
    rcases hGood.1.intact.exists_depth hGood.1.formed with ⟨value, hValue⟩
    exact nomatch hValue.symm.trans hFault
  fingerprint hGood hFault := by
    rcases hGood.1.intact.exists_fingerprint hGood.1.formed with ⟨value, hValue⟩
    exact nomatch hValue.symm.trans hFault
  queue := hQueue

def Conduct.steady (t : Task K) (hSpares : t.rules.Spares t.rules.Room) (hC : t.rules.Compiled)
    (hRules : ∀ rule ∈ t.rules.rules, rule.Reachable) (hCost : t.cost.Standard) : Conduct t :=
  .working t hSpares hC hRules
    (fun fault => fault = .wrongType ∧ t.settings.mode = .bounded ∧ t.settings.queueKept = none)
    (fun hWk hFault => by
      rcases hCost.exists_eval hWk.intact hWk.formed with ⟨value, hValue⟩
      exact nomatch hValue.symm.trans hFault)
    (fun hMode hNone => ⟨rfl, hMode, hNone⟩)

---- Optimisations ----

variable {K : Type} [Scalar K]

theorem Graph.Workable.validate {room : Nat → Nat → Prop} {a b : Graph K}
    (hWk : a.Workable room b) : b.validate = .ok () :=
  hWk.intact.validate_ok_iff.mpr hWk.formed

theorem exists_ruleGains {cost : Cost K} (hCost : cost.Standard) {rs : RuleSet K}
    (hC : rs.Compiled) : ∃ gains, ruleGains cost rs = .ok gains := by
  unfold ruleGains
  split
  · refine exists_mapM_eq_ok (fun rule hRule => ?_)
    have hUse := hC.usable hRule
    rcases hCost.exists_eval hUse.pattern hUse.patternFormed with ⟨before, hBef⟩
    rcases hCost.exists_eval hUse.replacement hUse.replacementFormed with ⟨after, hAfter⟩
    exact ⟨_, bind_eq_ok_iff.mpr ⟨before, hBef, bind_eq_ok_iff.mpr ⟨after, hAfter, rfl⟩⟩⟩
  · exact ⟨_, rfl⟩

variable [Scalar.Ordered K]

section

variable {rs : RuleSet K} {g : Graph K}

theorem Graph.Workable.good_copy {room : Nat → Nat → Prop} (hWk : g.Workable room g) :
    g.Workable room g.copy ∧ g.Ages [] g.copy :=
  ⟨hWk.copy, hWk.nextId_copy.ge, fun _ => hWk.nextId_copy⟩

theorem ends_runLevels_workable {t : Task K} (hSpares : t.rules.Spares t.rules.Room)
    (hC : t.rules.Compiled) (hRules : ∀ rule ∈ t.rules.rules, rule.Reachable)
    (hCost : t.cost.Standard) (hWk : g.Workable t.rules.Room g) (fuel : Nat) :
    Ends (t.search fuel g) (Run.start g.copy) (fun _ r => g.Workable t.rules.Room r.root)
      (fun fault _ => (fault = .wrongType ∧ t.settings.mode = .bounded ∧
        t.settings.queueKept = none) ∨ fault = .outOfFuel) := by
  have hStart : (Conduct.steady t hSpares hC hRules hCost).Good g (Run.start g.copy).log
      (Run.start g.copy).root := hWk.good_copy
  exact (Conduct.ends_runLevels hStart fuel (Search.ladder_levelPaths hWk.copy.intact _)).mono
    (fun _ _ hGood => hGood.1) (fun _ _ hStops => hStops)

theorem settles_runLevels_workable {t : Task K} {c : Conduct t} (hFinite : c.Finite)
    {room : Nat → Nat → Prop} (hWk : g.Workable room g) (hGood : c.Good g [] g.copy) :
    Settles (t.search · g) (Run.start g.copy) :=
  Conduct.settles_runLevels (r := Run.start g.copy) hFinite hGood
    (Search.ladder_levelPaths hWk.copy.intact _)

theorem ends_optimize_of_search (hC : rs.Compiled) (hWk : g.Workable rs.Room g)
    {clock : Nat → Float} {settings : Settings K} {cost : Cost K}
    (hCost : settings.cost.resolve = .ok cost) (hStd : cost.Standard) {fuel : Nat}
    {E : Fault → Prop}
    (hSea : ∀ gains, ruleGains cost rs = .ok gains →
      Ends (Task.search ⟨rs, cost, gains, settings, clock⟩ fuel g) (Run.start g.copy)
        (fun _ r => g.Workable rs.Room r.root) (fun fault _ => E fault))
    (events : List (Event K)) :
    Ends (optimize fuel clock rs settings g) events (fun o _ => g.Workable rs.Room o.graph)
      (fun fault _ => E fault) := by
  refine ends_optimize (Q := fun _ result => g.Workable rs.Room result) ?_ ?_ ?_ ?_ ?_ ?_
  · exact fun fault hFault => nomatch hFault.symm.trans hCost
  · rintro cost' fault hCost' hFault
    cases hCost'.symm.trans hCost
    rcases exists_ruleGains hStd hC with ⟨gains, hGains⟩
    exact nomatch hFault.symm.trans hGains
  · rintro cost' fault hCost' hFault
    cases hCost'.symm.trans hCost
    rcases hStd.exists_eval hWk.copy.intact hWk.copy.formed with ⟨initial, hInitial⟩
    exact nomatch hFault.symm.trans hInitial
  · rintro cost' gains hCost' hGains
    cases hCost'.symm.trans hCost
    exact hSea gains hGains
  · rintro cost' _ result fault hCost' hRes hFault
    cases hCost'.symm.trans hCost
    rcases hStd.exists_eval hRes.intact hRes.formed with ⟨final, hFinal⟩
    exact nomatch hFault.symm.trans hFinal
  · rintro _ result fault hRes hFault
    rcases exists_verifyResult hWk.intact hWk.formed hRes.intact hRes.formed
      settings.verify with ⟨answer, hAnswer⟩
    exact nomatch hFault.symm.trans hAnswer

section

variable (hSpares : rs.Spares rs.Room) (hC : rs.Compiled)
  (hRules : ∀ rule ∈ rs.rules, rule.Reachable) (hWk : g.Workable rs.Room g)

include hSpares hC hRules hWk

theorem ends_optimize_workable (clock : Nat → Float) (settings : Settings K) {cost : Cost K}
    (hCost : settings.cost.resolve = .ok cost) (hStd : cost.Standard)
    (events : List (Event K)) :
    (∀ fuel, Ends (optimize fuel clock rs settings g) events (fun o _ => g.Workable rs.Room o.graph)
      (fun fault _ => (fault = .wrongType ∧ settings.mode = .bounded ∧ settings.queueKept = none) ∨
        fault = .outOfFuel)) ∧
    ((∀ gains, ruleGains cost rs = .ok gains →
        Settles (Task.search ⟨rs, cost, gains, settings, clock⟩ · g) (Run.start g.copy)) →
      Settles (fun fuel => optimize fuel clock rs settings g) events) := by
  have hEnds := fun gains => ends_runLevels_workable (t := ⟨rs, cost, gains, settings, clock⟩)
    hSpares hC hRules hStd hWk
  refine ⟨fun fuel => ?_, fun hSettles => ?_⟩
  · exact ends_optimize_of_search hC hWk hCost hStd (fun gains _ => hEnds gains fuel) events
  · rcases exists_ruleGains hStd hC with ⟨gains, hGains⟩
    rcases hStd.exists_eval hWk.copy.intact hWk.copy.formed with ⟨initial, hInitial⟩
    exact settles_optimize hCost hGains hInitial (hSettles gains hGains)
      (fun fuel => (hEnds gains fuel).mono (fun _ _ hRoot => hRoot) (fun _ _ _ => trivial))
      (fun result hRes => hStd.exists_eval hRes.intact hRes.formed)
      (fun result hRes => exists_verifyResult hWk.intact hWk.formed hRes.intact
        hRes.formed _) events

theorem exists_optimized_of_settles {clock : Nat → Float} {settings : Settings K} {cost : Cost K}
    (hCost : settings.cost.resolve = .ok cost) (hStd : cost.Standard)
    (hSea : ∀ gains, ruleGains cost rs = .ok gains →
      Settles (Task.search ⟨rs, cost, gains, settings, clock⟩ · g) (Run.start g.copy))
    (hQueue : settings.mode = .greedy ∨ settings.queueKept ≠ none) (events : List (Event K)) :
    ∃ n o events', g.Workable rs.Room o.graph ∧
      ∀ fuel, n ≤ fuel → Yields (optimize fuel clock rs settings g) events o events' := by
  rcases ends_optimize_workable hSpares hC hRules hWk clock settings hCost hStd
    events with ⟨hEnds, hSettles⟩
  rcases (hSettles hSea).exists_yields hEnds with
    ⟨n, ⟨o, events', hRes, hSame⟩ | ⟨_, _, ⟨-, hMode, hNone⟩, -⟩⟩
  · exact ⟨n, o, events', hRes, hSame⟩
  · rcases hQueue with hGreedy | hSome
    · exact nomatch hGreedy.symm.trans hMode
    · exact absurd hNone hSome

theorem exists_optimized (clock : Nat → Float) {settings : Settings K} {cost : Cost K}
    (hCost : settings.cost.resolve = .ok cost) (hStd : cost.Standard)
    (hLimited : settings.Limited clock)
    (hQueue : settings.mode = .greedy ∨ settings.queueKept ≠ none) (events : List (Event K)) :
    ∃ n o events', g.Workable rs.Room o.graph ∧
      ∀ fuel, n ≤ fuel → Yields (optimize fuel clock rs settings g) events o events' := by
  refine exists_optimized_of_settles hSpares hC hRules hWk hCost hStd (fun gains _ => ?_) hQueue events
  let t : Task K := ⟨rs, cost, gains, settings, clock⟩
  have hAlw : ¬ (Conduct.steady t hSpares hC hRules hStd).Allowed .outOfFuel := by
    rintro ⟨hFault, -⟩
    exact nomatch hFault
  have hFinite := Settings.Limited.finite (t := t) hLimited hAlw
  exact settles_runLevels_workable hFinite hWk hWk.good_copy

end

end

---- Runs on Inversions ----

def Settings.unlimited (cost : Cost ℚ) : Settings ℚ :=
  ⟨.given cost, .greedy, none, none, true, true, some 4, some 2, false, 0⟩

def Settings.upTo (iterations : Nat) (mode : Mode) : Settings ℚ :=
  ⟨.standard, mode, some iterations, none, true, true, some 4, some 2, false, 1⟩

def inversionRun (settings : Settings ℚ) : Except Fault (Outcome ℚ) := do
  let task ← inversionTask
  (outcome (optimize 8 (fun _ => 0) task.2.1 settings task.2.2) []).1

theorem exists_inversionRun {settings : Settings ℚ} {check : Outcome ℚ → Bool}
    (hCheck : (inversionRun settings).toOption.any check = true) :
    ∃ rule rs g o events, inversionTask = .ok (rule, rs, g) ∧
      (∀ rule' ∈ [rule], rule'.Reachable) ∧ RuleSet.compile [rule] = .ok rs ∧ g.Reachable ∧
      g.validate = .ok () ∧ Yields (optimize 8 (fun _ => 0) rs settings g) [] o events ∧
      check o = true := by
  rcases exists_of_toOption_any hCheck with ⟨o, hRun, hCheck⟩
  rcases bind_eq_ok_iff.mp hRun with ⟨⟨rule, rs, g⟩, hTask, hRun⟩
  rcases parts_of_inversionTask hTask with ⟨hRule, hComp, hReach, hValid⟩
  exact ⟨rule, rs, g, o, _, hTask, List.forall_mem_singleton.mpr (Rule.reachable_of_ofCircuits hRule),
    hComp, hReach, hValid, Prod.ext hRun rfl, hCheck⟩

end CircuitGraph
