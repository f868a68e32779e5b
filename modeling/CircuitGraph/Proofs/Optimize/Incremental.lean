import CircuitGraph.Proofs.Optimize.Selection

/-
  Incremental search and full search.

  If all patterns are funnels, a search that looks only near
  its changes knows all matches at every time.

  Main declarations:
    * `InStep`: two searches side by side
    * `optimize_incremental_eq_full`
-/

---- Rounds ----

namespace CircuitGraph

open List

variable {K : Type}

theorem Search.agree_exceeded {t t' : Task K} {r r' : Run K} (hTime : t.settings.timeout = none)
    (hTime' : t'.settings.timeout = none)
    (hLimit : t'.settings.maxIterations = t.settings.maxIterations)
    (hIter : r'.iterations = r.iterations) :
    Agree (Search.exceeded t) r (Search.exceeded t') r'
      (fun stop s stop' s' => stop' = stop ∧ s = r ∧ s' = r') := by
  refine .get_bind (.of_ite (by rw [hLimit, hIter]) (fun _ => .of_pure ⟨rfl, rfl, rfl⟩)
    (fun _ => ?_))
  unfold Search.timeIsOver
  rw [hTime, hTime']
  exact .of_pure ⟨rfl, rfl, rfl⟩

/-
  Whether a task searches incrementally where other settings
  search everywhere, the patterns being funnels and time being
  unlimited.
-/
structure Task.Contrasts (t : Task K) (settings : Settings K) : Prop where
  funnels : ∀ rule ∈ t.rules.rules, rule.pattern.Funnel
  incremental : t.settings.incremental = true
  full : settings.incremental = false
  timeless : t.settings.timeout = none ∧ settings.timeout = none
  limit : settings.maxIterations = t.settings.maxIterations

namespace Task.Regular

variable [Scalar K] [Scalar.Ordered K] {t : Task K} (hReg : t.Regular)
  (settings : Settings K)

/-
  What a round of the incremental search and one of the full
  search come to: both stop, or both go on with all matches,
  or the first one looks once more and finds nothing to do.
-/
inductive InStep (site site' : Site K) :
    Option Status ⊕ Bool × List Match → Run K → Option Status ⊕ Bool × List Match → Run K →
    Prop where
  | stop {status : Option Status} {r r' : Run K} (twin : r.Twin r') :
      InStep site site' (.inl status) r (.inl status) r'
  | idle {found : List Match} {r r' : Run K} (twin : r.Twin r')
      (here : ∃ done, hReg.conduct.At site done r) (lists : t.rules.Lists r.level found)
      (nothing : t.batch r site.path found = []) :
      InStep site site' (.inr (true, found)) r (.inl none) r'
  | go {fresh : Bool} {known known' : List Match} {done done' : List Step} {r r' : Run K}
      (abreast : hReg.Abreast settings site site' done done' r r')
      (lists : t.rules.Lists r.level known) (lists' : t.rules.Lists r'.level known') :
      InStep site site' (.inr (fresh, known)) r (.inr (true, known')) r'

variable {hReg settings} {site site' : Site K} {done done' : List Step} {r r' : Run K}
  {ms ms' : List Match} (hAbr : hReg.Abreast settings site site' done done' r r')

include hAbr

theorem Abreast.of_unchanged {s s' : Run K} (hAt : hReg.conduct.At site done s) (hAr : r.Around s)
    (hU : r.level.Unchanged s.level)
    (hAt' : (hReg.of_settings settings).conduct.At site' done' s') (hAr' : r'.Around s')
    (hU' : r'.level.Unchanged s'.level) :
    hReg.Abreast settings site site' done done' s s' := by
  refine ⟨hAt, hAt', hAbr.path, ?_, ?_, ?_, ?_⟩
  · rw [hAr'.root, hAr.root, hAbr.twin.root]
  · have hS := (hReg.searchable hAbr.left).sound
    have hS' := ((hReg.of_settings settings).searchable hAbr.right).sound
    rw [← Graph.essence_of_alike hU.1 hS.unique,
      ← Graph.essence_of_alike hU'.1 hS'.unique, hAbr.twin.level]
  · rw [hAr'.iterations, hAr.iterations, hAbr.twin.iterations]
  · rw [hAr'.log, hAr.log, hAbr.twin.log]

theorem agree_applyBatch (hFunnels : ∀ rule ∈ t.rules.rules, rule.pattern.Funnel)
    {batch batch' : List Match}
    (hFnd : ∀ m ∈ batch, ∃ rule f, t.rules.Finds r.level m rule f)
    (hApart : batch.Pairwise Match.Apart)
    (hFnd' : ∀ m ∈ batch', ∃ rule f, t.rules.Finds r'.level m rule f)
    (hApart' : batch'.Pairwise Match.Apart)
    (hPlain : batch'.map Match.plain = batch.map Match.plain) : Agree (Greedy.applyBatch t batch) r
      (Greedy.applyBatch { t with settings := settings } batch') r'
      (fun out s out' s' => hReg.Abreast settings site site' (done ++ out.1) (done' ++ out'.1)
          s s' ∧ r.Around s ∧ r'.Around s' ∧ out.2 = [] ∧ out'.2 = [] ∧
        out'.1.map Step.plain = out.1.map Step.plain ∧ out.1.length = batch.length ∧
        ∃ carried, t.rules.Performs r.level carried s.level ∧ carried.map Prod.snd = out.1) := by
  have hSea := hReg.searchable hAbr.left
  have hSea' := (hReg.of_settings settings).searchable hAbr.right
  refine (Agree.of_ends (hReg.ends_applyBatch_funnels hFunnels hAbr.left hFnd hApart)
    ((hReg.of_settings settings).ends_applyBatch_funnels hFunnels hAbr.right hFnd' hApart')).mono ?_
  rintro ⟨steps, stale⟩ s ⟨steps', stale'⟩ s' ⟨⟨hAt, hAr, hStale, carried, hPerf, rfl, rfl⟩,
      hAt', hAr', hStale', carried', hPerf', rfl, rfl⟩
  rcases hPerf.agree hPerf' hSea.sound hSea.acyclic hSea'.sound hSea'.acyclic
    hAbr.twin.level hPlain with ⟨hEss, hSteps⟩
  refine ⟨⟨hAt, hAt', hAbr.path, ?_, hEss, ?_, ?_⟩, hAr, hAr', hStale, hStale',
    hSteps, by simp, carried, hPerf, rfl⟩
  · rw [hAr'.root, hAr.root, hAbr.twin.root]
  · rw [hAr'.iterations, hAr.iterations, hAbr.twin.iterations]
  · rw [hAr'.log, hAr.log, hAbr.twin.log]

theorem agree_recordBatch {steps steps' : List Step}
    (hSteps : steps'.map Step.plain = steps.map Step.plain) :
    Agree (Greedy.recordBatch t site.path steps) r
      (Greedy.recordBatch { t with settings := settings } site'.path steps') r'
      (fun _ s _ s' => hReg.Abreast settings site site' done done' s s' ∧ s.level = r.level) := by
  refine (Agree.of_ends (Conduct.ends_recordBatch hAbr.left steps)
    (Conduct.ends_recordBatch hAbr.right steps')).mono ?_
  rintro ⟨⟩ s ⟨⟩ s' ⟨hCnt, hCnt'⟩
  refine ⟨⟨?_, ?_, hAbr.path, ?_, ?_, ?_, ?_⟩, hCnt.level⟩
  · exact hAbr.left.of_root hCnt.root (hCnt.level ▸ hAbr.left.level)
  · exact hAbr.right.of_root hCnt'.root (hCnt'.level ▸ hAbr.right.level)
  · rw [hCnt'.root, hCnt.root, hAbr.twin.root]
  · rw [hCnt'.level, hCnt.level, hAbr.twin.level]
  · rw [hCnt'.iterations, hCnt.iterations, hAbr.twin.iterations]
  · have hLocated : ∀ (path : List Nat) (all : List Step), (all.map (Step.located path)).map
        Step.plain = (all.map Step.plain).map (Step.located path) := by
      intro path all
      rw [map_map, map_map]
      rfl
    rw [hCnt'.log, hCnt.log, map_append, map_append, hAbr.twin.log, hLocated,
      hLocated, hSteps, hAbr.path]

theorem agree_round (hContrasts : t.Contrasts settings)
    (hLists : t.rules.Lists r.level ms) (hLists' : t.rules.Lists r'.level ms') (fresh : Bool) :
    Agree (Greedy.round t site.path fresh ms) r
      (Greedy.round { t with settings := settings } site'.path true ms') r'
      (hReg.InStep settings site site') := by
  have hReg' := hReg.of_settings settings
  have hPlain := plain_batch hAbr hLists hLists'
  have hLen := congrArg List.length hPlain
  rw [length_map, length_map] at hLen
  refine (Agree.of_ends (Conduct.ends_select hAbr.left (fun m hM =>
    hReg.known_of_finds (hLists.found m hM))) (Conduct.ends_select hAbr.right
    (fun m hM => hReg'.known_of_finds (hLists'.found m hM)))).bind ?_
  rintro _ s _ s' ⟨⟨hStill, rfl⟩, hStill', rfl⟩
  have hAbr₁ := hAbr.of_still hStill hStill'
  have hEmpty : (t.batch r site.path ms).isEmpty = true ↔
      (t.batch r' site'.path ms').isEmpty = true := by
    rw [isEmpty_iff_length_eq_zero, isEmpty_iff_length_eq_zero, hLen]
  refine .of_ite hEmpty (fun hNone => ?_) (fun hSome => ?_)
  · -- nothing to do: the full search stops, the incremental one may look once more
    rw [if_pos rfl]
    cases fresh with
    | true => exact .of_pure (.stop hAbr₁.twin)
    | false =>
      intro next u next' u' hY hY'
      rcases yields_pure_iff.mp hY' with ⟨rfl, rfl⟩
      rcases yields_bind_iff.mp hY with ⟨found, u₁, hFind, hPure⟩
      rcases yields_pure_iff.mp hPure with ⟨rfl, rfl⟩
      rcases (hReg.ends_findInLevel hAbr₁.left).1 found u hFind with
        ⟨hAt, hAr, hU, hFnd⟩
      have hLater := hAbr₁.of_unchanged hAt hAr hU hAbr₁.right (.refl _) (.refl _)
      rw [hStill.level] at hU
      have hAgain := hAbr.of_unchanged hAt (hStill.toAround.trans hAr) hU
        hAbr.right (.refl r') (.refl _)
      have hPlain₂ := plain_batch hAgain hFnd hLists'
      have hNone' : t.batch r' site'.path ms' = [] := List.isEmpty_iff.mp (hEmpty.mp hNone)
      rw [hNone'] at hPlain₂
      exact .idle hLater.twin ⟨done, hAt⟩ hFnd (map_eq_nil_iff.mp hPlain₂.symm)
  · refine (Search.agree_exceeded hContrasts.timeless.1 hContrasts.timeless.2 hContrasts.limit
      hAbr₁.twin.iterations).bind ?_
    rintro stop s₁ stop' s₁' ⟨rfl, rfl, rfl⟩
    cases stop' with
    | some status => exact .of_pure (.stop hAbr₁.twin)
    | none =>
      have hFnd : ∀ m ∈ t.batch r site.path ms, ∃ rule f, t.rules.Finds s₁.level m rule f := by
        rw [hStill.level]
        exact fun m hM => hLists.found m (Task.mem_of_mem_batch hM)
      have hFnd' : ∀ m ∈ t.batch r' site'.path ms', ∃ rule f, t.rules.Finds s₁'.level m rule f := by
        rw [hStill'.level]
        exact fun m hM => hLists'.found m (Task.mem_of_mem_batch hM)
      refine (agree_applyBatch hAbr₁ hContrasts.funnels hFnd (t.batch_apart _ _ _) hFnd'
        (t.batch_apart _ _ _) hPlain).bind ?_
      rintro ⟨steps, stale⟩ s₂ ⟨steps', stale'⟩ s₂'
        ⟨hAbr₂, hAr, hAr', rfl, rfl, hSteps, hAll, carried, hPerf, rfl⟩
      dsimp only at hAbr₂ hSteps hAll
      have hEffect : ¬ (carried.map Prod.snd).isEmpty = true := by
        rw [isEmpty_iff_length_eq_zero, hAll, ← isEmpty_iff_length_eq_zero]
        exact hSome
      have hEffect' : ¬ steps'.isEmpty = true := by
        have hSame := congrArg List.length hSteps
        rw [length_map, length_map] at hSame
        rwa [isEmpty_iff_length_eq_zero, hSame, ← isEmpty_iff_length_eq_zero]
      simp only [foldl_nil, if_neg hEffect, if_neg hEffect']
      refine (agree_recordBatch hAbr₂ hSteps).bind ?_
      rintro ⟨⟩ s₃ ⟨⟩ s₃' ⟨hAbr₃, hLevel⟩
      rw [if_pos hContrasts.incremental, if_neg (by simp [hContrasts.full])]
      have hSea := hReg.searchable hAbr.left
      have hPerf₃ : t.rules.Performs r.level carried s₃.level := by
        rwa [hStill.level, ← hLevel] at hPerf
      refine (Agree.of_ends (hReg.ends_rematch hContrasts.funnels hAbr₃.left hSea.sound
        hSea.acyclic hLists hPerf₃) (hReg'.ends_findInLevel hAbr₃.right)).bind ?_
      rintro known u known' u' ⟨⟨hAt, hAr₄, hU, hKnown⟩, hAt', hAr₄', hU', hKnown'⟩
      exact .of_pure (.go (hAbr₃.of_unchanged hAt hAr₄ hU hAt' hAr₄' hU') hKnown hKnown')

end Task.Regular

---- Levels ----

variable [Scalar K]

namespace Task.Regular

variable [Scalar.Ordered K] {t : Task K} {hReg : t.Regular}
  {settings : Settings K} {site site' : Site K} {done done' : List Step} {r r' : Run K}
  {ms ms' : List Match}

theorem yields_loop_idle (hAt : hReg.conduct.At site done r)
    (hLists : t.rules.Lists r.level ms) (hNothing : t.batch r site.path ms = []) {fuel : Nat}
    {stop : Option Status} {s : Run K}
    (hY : Yields (Greedy.loop t site.path fuel true ms) r stop s) :
    stop = none ∧ r.Still s := by
  cases fuel with
  | zero => exact absurd hY not_yields_throw
  | succ fuel =>
    rw [Greedy.loop_succ] at hY
    rcases yields_bind_iff.mp hY with ⟨next, s₁, hRound, hOn⟩
    rcases yields_bind_iff.mp hRound with ⟨batch, s₂, hSelect, hRest⟩
    rcases (Conduct.ends_select hAt (fun m hM => hReg.known_of_finds
      (hLists.found m hM))).1 batch s₂ hSelect with ⟨hStill, rfl⟩
    rw [hNothing] at hRest
    rcases yields_pure_iff.mp hRest with ⟨rfl, rfl⟩
    rcases yields_pure_iff.mp hOn with ⟨rfl, rfl⟩
    exact ⟨rfl, hStill⟩

section

variable (hContrasts : t.Contrasts settings)
  (hAbr : hReg.Abreast settings site site' done done' r r')

include hContrasts hAbr

theorem agree_loop (hLists : t.rules.Lists r.level ms) (hLists' : t.rules.Lists r'.level ms')
    (fuel fuel' : Nat) (fresh : Bool) : Agree (Greedy.loop t site.path fuel fresh ms) r
      (Greedy.loop { t with settings := settings } site'.path fuel' true ms') r'
      (fun stop s stop' s' => stop' = stop ∧ s.Twin s') := by
  induction fuel generalizing fuel' fresh done done' r r' ms ms' with
  | zero => exact fun _ _ _ _ hY => absurd hY not_yields_throw
  | succ fuel ih =>
    cases fuel' with
    | zero => exact fun _ _ _ _ _ hY => absurd hY not_yields_throw
    | succ fuel' =>
      rw [Greedy.loop_succ, Greedy.loop_succ]
      refine (agree_round hAbr hContrasts hLists hLists' fresh).bind ?_
      intro next s next' s' hStep
      cases hStep with
      | stop hTwin => exact .of_pure ⟨rfl, hTwin⟩
      | idle hTwin hHere hFnd hNothing =>
        intro stop u stop' u' hY hY'
        rcases yields_pure_iff.mp hY' with ⟨rfl, rfl⟩
        rcases yields_loop_idle hHere.choose_spec hFnd hNothing hY with ⟨rfl, hStill⟩
        exact ⟨rfl, hTwin.of_still hStill (.refl _)⟩
      | go hAbr₁ hKnown hKnown' => exact ih hAbr₁ hKnown hKnown' fuel' _

theorem agree_greedy (fuel fuel' : Nat) : Agree (Greedy.optimize t fuel site.path) r
      (Greedy.optimize { t with settings := settings } fuel' site'.path) r'
      (fun stop s stop' s' => stop' = stop ∧ s.Twin s') := by
  refine (Agree.of_ends (hReg.ends_findInLevel hAbr.left)
    ((hReg.of_settings settings).ends_findInLevel hAbr.right)).bind ?_
  rintro found s found' s' ⟨⟨hAt, hAr, hU, hFnd⟩, hAt', hAr', hU', hFnd'⟩
  exact agree_loop hContrasts (hAbr.of_unchanged hAt hAr hU hAt' hAr' hU') hFnd hFnd' fuel
    fuel' true

end

theorem agree_runLevels (hContrasts : t.Contrasts settings) (hMode : t.settings.mode = .greedy)
    (hMode' : settings.mode = .greedy) {start : Graph K}
    (hGood : hReg.conduct.Good start r.log r.root)
    (hGood' : (hReg.of_settings settings).conduct.Good start r'.log r'.root) (hTwin : r.Twin r')
    {paths : List (List Nat)} (hLadder : r.root.Ladder paths) (fuel fuel' : Nat) :
    Agree (Search.runLevels t fuel paths) r
      (Search.runLevels { t with settings := settings } fuel' paths) r'
      (fun stop s stop' s' => stop' = stop ∧ s.Twin s') := by
  induction paths generalizing r r' with
  | nil => exact .of_pure ⟨rfl, hTwin⟩
  | cons path paths ih =>
    have hReg' := hReg.of_settings settings
    rcases hLadder.places path mem_cons_self with ⟨base, hPlace⟩
    have hI := (hReg.workable hGood).intact
    have hI' := (hReg'.workable hGood').intact
    have hB : (r'.root.bodyAt? path).map Graph.essence = some base.essence := by
      rw [← hI'.bodyAt?_essence, hTwin.root, hI.bodyAt?_essence, hPlace, Option.map_some]
    rcases Option.map_eq_some_iff.mp hB with ⟨base', hPlace', hBase⟩
    have hEnter := Conduct.at_enter hGood hPlace
    have hEnter' := Conduct.at_enter hGood' hPlace'
    have hAbr : hReg.Abreast settings ⟨start, r.log, r.root, path, base⟩
        ⟨start, r'.log, r'.root, path, base'⟩ [] []
        { r with level := (r.root.bodyAt? path).getD r.root }
        { r' with level := (r'.root.bodyAt? path).getD r'.root } := by
      refine ⟨hEnter, hEnter', rfl, hTwin.root, ?_, hTwin.iterations, hTwin.log⟩
      simp only [hPlace, hPlace', Option.getD_some, hBase]
    have hEnds := Conduct.ends_runLevel hEnter (by simp [Conduct.Logged]) fuel
    have hEnds' := Conduct.ends_runLevel hEnter' (by simp [Conduct.Logged]) fuel'
    rw [Search.runLevel_greedy hMode] at hEnds
    rw [Search.runLevel_greedy hMode'] at hEnds'
    rw [Search.runLevels, Search.runLevels, Search.runLevel_greedy hMode,
      Search.runLevel_greedy hMode']
    refine .modify_bind ((agree_greedy hContrasts hAbr fuel fuel').with_yields.bind ?_)
    rintro stop s stop' s' ⟨⟨rfl, hTwin₁⟩, hY, hY'⟩
    rcases hEnds.1 _ s hY with ⟨done, hAt, hLogged⟩
    rcases hEnds'.1 _ s' hY' with ⟨done', hAt', hLogged'⟩
    have hLeave := hAt.good_leave hLogged
    have hLeave' := hAt'.good_leave hLogged'
    have hAfter : Run.Twin { s with root := s.root.replaceAt path s.level }
        { s' with root := s'.root.replaceAt path s'.level } := by
      refine ⟨?_, hTwin₁.level, hTwin₁.iterations, hTwin₁.log⟩
      have hRoot : s.root.Intact := hAt.root ▸ hI
      have hRoot' : s'.root.Intact := hAt'.root ▸ hI'
      rw [hRoot'.essence_replaceAt, hRoot.essence_replaceAt, hTwin₁.root, hTwin₁.level]
    refine .modify_bind ?_
    cases stop' with
    | some status => exact .get_bind (.modify_bind (.of_pure
        ⟨rfl, hAfter.root, hAfter.level, hAfter.iterations, hAfter.log⟩))
    | none =>
      exact ih hLeave hLeave' hAfter (hAt.ladder_leave hLadder)

end Task.Regular

---- Optimisations ----

/- The rules of the library bring an operation at most and take more, so that ids are few. -/
theorem Identities.roomy_of_standard {elideSwaps : Bool} {rs : RuleSet K}
    (hLibrary : standard elideSwaps = .ok rs.rules) {g : Graph K}
    (hCnt : Graph.Everywhere (fun h : Graph K => Scalar.Counts K (h.nextId + h.ops.length)) g) :
    rs.Roomy g := by
  have hTapers := tapers_of_standard hLibrary
  refine RuleSet.roomy_of_shrinks (fun rule hRule => (hTapers rule hRule).smaller)
    (fun rule hRule => (hTapers rule hRule).small)
    (fun rule hRule node hN => Option.isNone_iff_eq_none.mp ((hTapers rule hRule).flat node hN)) ?_
  exact hCnt.mono (fun h hHere => by rwa [Nat.one_mul])

variable [Scalar.Ordered K]

theorem exists_optimized_of_shrinks {rs : RuleSet K}
    (hSpares : rs.Spares rs.Room) (hC : rs.Compiled)
    (hRules : ∀ rule ∈ rs.rules, rule.Reachable)
    (hShrinks : ∀ rule ∈ rs.rules, rule.replacement.ops.length < rule.pattern.ops.length)
    {g : Graph K} (hWk : g.Workable rs.Room g) (clock : Nat → Float) (settings : Settings K)
    (hMode : settings.mode = .greedy) {cost : Cost K} (hCost : settings.cost.resolve = .ok cost)
    (hStd : cost.Standard) (events : List (Event K)) : ∃ n o events', g.Workable rs.Room o.graph ∧
      ∀ fuel, n ≤ fuel → Yields (optimize fuel clock rs settings g) events o events' := by
  refine exists_optimized_of_settles hSpares hC hRules hWk hCost hStd
    (fun gains _ => ?_) (.inl hMode) events
  have hReg : Task.Regular ⟨rs, cost, gains, settings, clock⟩ :=
    ⟨hSpares, hC, hRules, hStd⟩
  exact settles_runLevels_workable (hReg.finite hShrinks hMode) hWk (hReg.good_copy hWk)

/-
  With the rules of the library, keeping the matches and
  searching anew only near what was changed gives the same
  as searching all of the graph after every batch.  Both
  optimisations come to an end, with the same result, steps,
  status, number of iterations and cost.  In the steps, the
  same nodes may be spelled differently.
-/
theorem optimize_incremental_eq_full
    {elideSwaps : Bool}
    {rules : List (Rule K)}
    (hLibrary : Identities.standard elideSwaps = .ok rules)
    {rs : RuleSet K}
    (hCompile : RuleSet.compile rules = .ok rs)
    {g : Graph K}
    (hReach : g.Reachable)
    (hFormed : g.validate = .ok ())
    (hCounts : Graph.Everywhere (fun h : Graph K => Scalar.Counts K (h.nextId + h.ops.length)) g)
    (clock : Nat → Float)
    (settings : Settings K)
    (hMode : settings.mode = .greedy)
    (hTime : settings.timeout = none)
    {cost : Cost K}
    (hCost : settings.cost.resolve = .ok cost)
    (hStandard : cost.Standard)
    (events : List (Event K)) :
    ∃ n o o' events₁ events₂,
      (∀ fuel, n ≤ fuel →
        Yields (optimize fuel clock rs { settings with incremental := true } g) events o events₁ ∧
        Yields (optimize fuel clock rs { settings with incremental := false } g) events o'
          events₂) ∧
      o'.graph.toDescription = o.graph.toDescription ∧
      o'.log.map Step.plain = o.log.map Step.plain ∧
      o'.status = o.status ∧ o'.iterations = o.iterations ∧ o'.finalCost = o.finalCost := by
  have hRules := Identities.reachable_of_standard hLibrary
  rcases RuleSet.compiled_of_reachable hRules hCompile with ⟨rfl, hCompiled⟩
  have hTapers := Identities.tapers_of_standard hLibrary
  have hRoomy : rs.Roomy g := Identities.roomy_of_standard hLibrary hCounts
  have hWork := Graph.Workable.of_reachable hReach (hReach.intact.validate_ok_iff.mp hFormed)
    hRoomy.levels
  have hEnd := fun incremental => exists_optimized_of_shrinks hRoomy.spares hCompiled hRules
    (fun rule hRule => (hTapers rule hRule).smaller) hWork clock
    { settings with incremental := incremental } hMode hCost hStandard events
  rcases hEnd true with ⟨n, o, events₁, hResult, hDone⟩
  rcases hEnd false with ⟨n', o', events₂, hResult', hDone'⟩
  refine ⟨max n n', o, o', events₁, events₂, fun fuel hLe => ⟨hDone fuel ?_, hDone' fuel ?_⟩, ?_⟩
  · omega
  · omega
  rcases ends_optimize_reports.1 _ _ (hDone n (Nat.le_refl n)) with
    ⟨cost₁, gains, stop, r, hCost₁, hGains, hRun, hReports, -⟩
  rcases ends_optimize_reports.1 _ _ (hDone' n' (Nat.le_refl n')) with
    ⟨cost₂, gains', stop', r', hCost₂, hGains', hRun', hReports', -⟩
  obtain rfl := eq_of_ok hCost₁ hCost
  obtain rfl := eq_of_ok hCost₂ hCost
  obtain rfl := eq_of_ok hGains hGains'
  let t : Task K := ⟨rs, cost₂, gains, { settings with incremental := true }, clock⟩
  have hRegular : t.Regular := ⟨hRoomy.spares, hCompiled, hRules, hStandard⟩
  have hContrasts : t.Contrasts { settings with incremental := false } :=
    ⟨fun rule hRule => (hTapers rule hRule).narrow.funnel, rfl, rfl, ⟨hTime, hTime⟩, rfl⟩
  have hGood : hRegular.conduct.Good g (Run.start g.copy).log (Run.start g.copy).root :=
    hRegular.good_copy hWork
  have hGood' : (hRegular.of_settings { settings with incremental := false }).conduct.Good g
      (Run.start g.copy).log (Run.start g.copy).root :=
    (hRegular.of_settings _).good_copy hWork
  have hAgree := Task.Regular.agree_runLevels hContrasts hMode hMode hGood hGood'
    ⟨rfl, rfl, rfl, rfl⟩ (Search.ladder_levelPaths hWork.copy.intact settings.recurse) n n'
  rcases hAgree _ _ _ _ hRun hRun' with ⟨rfl, hTwin⟩
  have hRoot : r'.root.essence = r.root.essence := hTwin.root
  rw [hReports.graph] at hResult
  rw [hReports'.graph] at hResult'
  refine ⟨?_, ?_, ?_, ?_, ?_⟩
  · rw [hReports.graph, hReports'.graph]
    exact hResult'.intact.toDescription_eq hResult.intact hRoot
  · rw [hReports.log, hReports'.log, hTwin.log]
  · rw [hReports.status, hReports'.status]
  · rw [hReports.iterations, hReports'.iterations, hTwin.iterations]
  · have hSame := hStandard.eval_eq hResult'.intact hResult.intact hRoot
    exact Except.ok.inj ((hReports'.final.symm.trans hSame).trans hReports.final)

/- On two inversions in a row both searches come to an end, in the same way. -/
theorem optimize_incremental_eq_full_inversions :
    ∃ (rules : List (Rule ℚ)) (rs : RuleSet ℚ) (g : Graph ℚ),
      Identities.standard true = .ok rules ∧ RuleSet.compile rules = .ok rs ∧
      Graph.ofCircuit (Identities.circuit 1 [(.x, [0]), (.x, [0])]) = .ok g ∧
      ∃ n o o' events₁ events₂,
        (∀ fuel, n ≤ fuel →
          Yields (optimize fuel (fun _ => 0) rs ⟨.standard, .greedy, none, none, true, true, some 4,
            some 2, false, 0⟩ g) [] o events₁ ∧
          Yields (optimize fuel (fun _ => 0) rs ⟨.standard, .greedy, none, none, false, true, some 4,
            some 2, false, 0⟩ g) [] o' events₂) ∧
        o'.graph.toDescription = o.graph.toDescription ∧
        o'.log.map Step.plain = o.log.map Step.plain ∧
        o'.status = o.status ∧ o'.iterations = o.iterations ∧ o'.finalCost = o.finalCost := by
  rcases Identities.exists_standard_inversions with ⟨rules, rs, g, hLibrary, hCompile, hGraph, hFormed⟩
  let settings : Settings ℚ :=
    ⟨.standard, .greedy, none, none, true, true, some 4, some 2, false, 0⟩
  have hCost : settings.cost.resolve = .ok .gates := rfl
  exact ⟨rules, rs, g, hLibrary, hCompile, hGraph,
    optimize_incremental_eq_full hLibrary hCompile (Graph.reachable_of_ofCircuit hGraph) hFormed
      (.of_all (fun _ => Scalar.counts_rational _) g) (fun _ => 0) settings rfl rfl hCost
      .gates []⟩

end CircuitGraph
