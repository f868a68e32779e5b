import CircuitGraph.Proofs.Optimize.Conduct

/-
  What the greedy search keeps.

  A greedy search goes on in rounds.  A round selects a batch,
  plans it as a whole and carries out the plans one after
  another; a plan that has become stale is left out.
-/

---- Batches ----

namespace CircuitGraph

open List

variable {K : Type} [Scalar K] {ms : List Match} {m : Match} {b b' : Graph K}

def Match.Apart (m m' : Match) : Prop :=
  ∀ n ∈ m.ids, n ∉ m'.ids

namespace Greedy

theorem mem_of_disjoint {claimed : List Nat} (hM : m ∈ disjoint claimed ms) : m ∈ ms := by
  induction ms generalizing claimed with
  | nil => simp [disjoint] at hM
  | cons n ms ih =>
    rw [disjoint] at hM
    split at hM
    · exact mem_cons_of_mem _ (ih hM)
    · rcases mem_cons.mp hM with rfl | hLater
      · exact mem_cons_self
      · exact mem_cons_of_mem _ (ih hLater)

theorem disjoint_apart (claimed : List Nat) (ms : List Match) :
    (disjoint claimed ms).Pairwise Match.Apart ∧
      ∀ m ∈ disjoint claimed ms, ∀ n ∈ m.ids, n ∉ claimed := by
  induction ms generalizing claimed with
  | nil => simp [disjoint]
  | cons m ms ih =>
    rw [disjoint]
    split
    · exact ih claimed
    · rename_i hFree
      rcases ih (claimed ++ m.ids) with ⟨hApart, hLater⟩
      simp only [mem_append, not_or] at hLater
      refine ⟨pairwise_cons.mpr ⟨fun m' hM n hN hN' => ?_, hApart⟩, fun m' hM n hN => ?_⟩
      · exact (hLater m' hM n hN').2 hN
      · rcases mem_cons.mp hM with rfl | hTail
        · intro hClaimed
          apply hFree
          rw [any_eq_true]
          exact ⟨n, hN, by simpa using hClaimed⟩
        · exact (hLater m' hTail n hN).1

theorem mem_improving_iff {gains : List K} {entry : K × Match} : entry ∈ improving gains ms ↔
      entry.2 ∈ ms ∧ gains[entry.2.rule]? = some entry.1 ∧ ((0 : Nat) : K) < entry.1 := by
  rw [improving, mem_filterMap]
  constructor
  · rintro ⟨m, hM, hSome⟩
    cases hGain : gains[m.rule]? with
    | none => simp [hGain] at hSome
    | some gain =>
      simp only [hGain, Option.ite_none_right_eq_some, Option.some.injEq] at hSome
      rcases hSome with ⟨hPos, rfl⟩
      exact ⟨hM, hGain, hPos⟩
  · rintro ⟨hM, hGain, hPos⟩
    exact ⟨entry.2, hM, by simp [hGain, hPos]⟩

theorem mem_of_batchOf {ranks : List Nat} {gains : List K} (hM : m ∈ batchOf ranks gains ms) :
    m ∈ ms ∧ ∃ gain, gains[m.rule]? = some gain ∧ ((0 : Nat) : K) < gain := by
  rcases mem_map.mp (mem_of_disjoint hM) with ⟨⟨gain, m'⟩, hSort, rfl⟩
  rcases mem_improving_iff.mp (mem_mergeSort.mp hSort) with ⟨hKnown, hGain⟩
  exact ⟨hKnown, gain, hGain⟩

end Greedy

---- Selections ----

variable {t : Task K} {r r' : Run K} {path : List Nat} {current : K}

namespace Task

/- What a match gains in a cost of whole graphs. -/
def trial (t : Task K) (r : Run K) (path : List Nat) (current : K) (m : Match) :
    Option (K × Match) := do
  let (_, g) ← t.rules.attempt m r.level
  let value ← (t.cost.eval (r.root.replaceAt path g)).toOption
  if ((0 : Nat) : K) < current - value then some (current - value, m) else none

/- The batch that is selected. -/
def batch (t : Task K) (r : Run K) (path : List Nat) (ms : List Match) : List Match :=
  if t.cost.isLocal then Greedy.batchOf t.rules.ranks t.gains ms
  else
    match t.cost.eval (r.root.replaceAt path r.level) with
    | .error _ => []
    | .ok current =>
      (((ms.filterMap (t.trial r path current)).mergeSort (Greedy.before t.rules.ranks)).map
        Prod.snd).take 1

theorem trial_eq_some_iff {entry : K × Match} :
    t.trial r path current m = some entry ↔ ∃ step g value,
      Yields (t.rules.apply m) r.level.copy step g ∧
      t.cost.eval (r.root.replaceAt path g) = .ok value ∧ ((0 : Nat) : K) < current - value ∧
      entry = (current - value, m) := by
  have hValue : ∀ g value, (t.cost.eval g).toOption = some value ↔ t.cost.eval g = .ok value := by
    intro g value
    cases t.cost.eval g <;> simp [Except.toOption]
  simp only [trial, Option.bind_eq_bind, Option.bind_eq_some_iff, Prod.exists,
    RuleSet.attempt_eq_some_iff, hValue, Option.ite_none_right_eq_some, Option.some.injEq,
    eq_comm (a := entry), exists_and_left]

theorem trial_of_still (hStill : r.Still r') :
    t.trial r' path current = t.trial r path current := by
  funext m
  rw [trial, trial, hStill.level, hStill.root]

theorem trial_of_mem_batch (hGlobal : ¬ t.cost.isLocal = true) (hM : m ∈ t.batch r path ms) :
    m ∈ ms ∧ ∃ current gain, t.cost.eval (r.root.replaceAt path r.level) = .ok current ∧
      t.trial r path current m = some (gain, m) := by
  rw [batch, if_neg hGlobal] at hM
  split at hM
  · exact nomatch hM
  · rename_i current hCurrent
    rcases mem_map.mp (mem_of_mem_take hM) with ⟨entry, hSort, rfl⟩
    rcases mem_filterMap.mp (mem_mergeSort.mp hSort) with ⟨m, hListed, hTrial⟩
    rcases trial_eq_some_iff.mp hTrial with ⟨_, _, _, _, _, _, rfl⟩
    exact ⟨hListed, current, _, hCurrent, hTrial⟩

theorem mem_of_mem_batch (hM : m ∈ t.batch r path ms) : m ∈ ms := by
  by_cases hLocal : t.cost.isLocal = true
  · rw [batch, if_pos hLocal] at hM
    exact (Greedy.mem_of_batchOf hM).1
  · exact (trial_of_mem_batch hLocal hM).1

theorem length_batch_le (hGlobal : ¬ t.cost.isLocal = true) (r : Run K) (path : List Nat)
    (ms : List Match) : (t.batch r path ms).length ≤ 1 := by
  rw [batch, if_neg hGlobal]
  split
  · exact Nat.zero_le 1
  · exact length_take_le 1 _

theorem batch_apart (t : Task K) (r : Run K) (path : List Nat) (ms : List Match) :
    (t.batch r path ms).Pairwise Match.Apart := by
  by_cases hLocal : t.cost.isLocal = true
  · rw [batch, if_pos hLocal]
    exact (Greedy.disjoint_apart [] _).1
  · have hOne := length_batch_le hLocal r path ms
    cases hBatch : t.batch r path ms with
    | nil => exact .nil
    | cons m rest =>
      rw [hBatch, length_cons] at hOne
      obtain rfl := length_eq_zero_iff.mp (Nat.le_zero.mp (Nat.le_of_succ_le_succ hOne))
      exact pairwise_singleton _ m

end Task

namespace Conduct

variable {c : Conduct t} {site : Site K} {done : List Step}

theorem ends_trialGain (hGlobal : ¬ t.cost.isLocal = true) (hAt : c.At site done r)
    (hKnown : c.Known m) (current : K) : Ends (Greedy.trialGain t site.path current m) r
      (fun scored r' => r.Still r' ∧ scored = t.trial r site.path current m)
      (fun fault _ => c.Allowed fault) := by
  refine .get_bind ((ends_applyTo hAt.level hKnown).bind ?_)
  rintro applied r₁ ⟨hStill, hAttempt, hTrial⟩
  rw [Task.trial, ← hAttempt]
  cases applied with
  | none => exact .of_pure ⟨hStill, rfl⟩
  | some entry =>
    rcases hTrial entry.1 entry.2 rfl with ⟨hGood, hPath⟩
    refine (ends_score (hAt.of_still hStill) hGood (plain_append hAt.plain hPath)).bind ?_
    rintro value _ ⟨rfl, hValue⟩
    rw [hStill.root, Task.whole_of_global hGlobal] at hValue
    simp only [Option.bind_eq_bind, Option.bind_some, hValue, Except.toOption]
    exact .of_ite (fun hLess => .of_pure ⟨hStill, (if_pos hLess).symm⟩)
      (fun hNot => .of_pure ⟨hStill, (if_neg hNot).symm⟩)

theorem ends_trialGains (hGlobal : ¬ t.cost.isLocal = true) (hAt : c.At site done r)
    (hKnown : ∀ m ∈ ms, c.Known m) (current : K) : Ends (Greedy.trialGains t site.path current ms) r
      (fun scored r' => r.Still r' ∧ scored = ms.filterMap (t.trial r site.path current))
      (fun fault _ => c.Allowed fault) := by
  induction ms generalizing r with
  | nil => exact .of_pure ⟨.refl r, rfl⟩
  | cons m ms ih =>
    refine (ends_trialGain hGlobal hAt (hKnown m mem_cons_self) current).bind ?_
    rintro scored r₁ ⟨hStill, rfl⟩
    refine (ih (hAt.of_still hStill) (fun n hM => hKnown n (mem_cons_of_mem _ hM))).bind ?_
    rintro others r₂ ⟨hStill', rfl⟩
    refine .of_pure ⟨hStill.trans hStill', ?_⟩
    rw [Task.trial_of_still hStill, filterMap_cons]
    cases t.trial r site.path current m <;> rfl

theorem ends_select (hAt : c.At site done r) (hKnown : ∀ m ∈ ms, c.Known m) :
    Ends (Greedy.select t site.path ms) r
      (fun batch r' => r.Still r' ∧ batch = t.batch r site.path ms)
      (fun fault _ => c.Allowed fault) := by
  unfold Task.batch
  refine .of_ite (fun hLocal => .of_pure ⟨.refl r, (if_pos hLocal).symm⟩)
    (fun hGlobal => .get_bind ?_)
  refine (ends_score hAt hAt.level hAt.plain).bind ?_
  rintro current _ ⟨rfl, hCurrent⟩
  refine (ends_trialGains hGlobal hAt hKnown current).bind ?_
  rintro scored r' ⟨hStill, rfl⟩
  rw [Task.whole_of_global hGlobal] at hCurrent
  exact .of_pure ⟨hStill, by rw [if_neg hGlobal, hCurrent]⟩

end Conduct

---- Commits ----

namespace Conduct

def Outdated (c : Conduct t) (m : Match) (b : Graph K) : Prop :=
  (∃ a h, c.Good a h b) ∧ ∃ fault b', fault.Stale ∧ Fails (t.rules.plan m) b fault b'

/- Substitutions done one after the other; in between a graph is only read. -/
inductive Derives (c : Conduct t) : Graph K → List (Match × Step) → Graph K → Prop where
  | done {b b' : Graph K} (unchanged : b.Unchanged b') :
      Derives c b [] b'
  | step {b b₁ b₂ b' : Graph K} {p : Plan} {s : Step} {rest : List (Match × Step)}
      (unchanged : b.Unchanged b₁) (good : ∃ a h, c.Good a h b₁) (fit : c.Fit p b₁)
      (yields : Yields (t.rules.carryOut p) b₁ s b₂) (derives : Derives c b₂ rest b') :
      Derives c b ((p.found, s) :: rest) b'

/- What is known of a planned match while others are committed. -/
structure Pending (c : Conduct t) (level : Graph K) (entry : Match × Option Plan) : Prop where
  known : c.Known entry.1
  found : ∀ p, entry.2 = some p → p.found = entry.1
  version : ∀ p, entry.2 = some p → p.version ≤ level.version
  fit : ∀ p, entry.2 = some p → p.version = level.version → c.Fit p level

variable {c : Conduct t} {site : Site K} {done : List Step}

theorem Derives.of_unchanged {b₁ : Graph K} {done : List (Match × Step)}
    (hU : b.Unchanged b₁) (hDer : c.Derives b₁ done b') : c.Derives b done b' := by
  cases hDer with
  | done hRest => exact .done (hU.trans hRest)
  | step hRest hGood hFit hY hDer =>
    exact .step (hU.trans hRest) hGood hFit hY hDer

theorem Derives.trans {b₁ : Graph K} {done done' : List (Match × Step)}
    (hL : c.Derives b done b₁) (hR : c.Derives b₁ done' b') :
    c.Derives b (done ++ done') b' := by
  induction hL with
  | done hU => exact hR.of_unchanged hU
  | step hU hGood hFit hY _ ih => exact .step hU hGood hFit hY (ih hR)

namespace Pending

variable {level level' : Graph K} {entry : Match × Option Plan}

theorem of_unchanged (hPending : c.Pending level entry) (hU : level.Unchanged level') :
    c.Pending level' entry := by
  refine ⟨hPending.known, hPending.found, fun p hPlan => ?_, fun p hPlan hVer => ?_⟩
  · rw [hU.2.1]
    exact hPending.version p hPlan
  · rw [hU.2.1] at hVer
    exact c.fit (hPending.fit p hPlan hVer) hU

theorem of_newer (hPending : c.Pending level entry) (hNewer : level.version < level'.version) :
    c.Pending level' entry := by
  refine ⟨hPending.known, hPending.found, fun p hPlan => ?_, fun p hPlan hVer => ?_⟩
  · exact (hPending.version p hPlan).trans hNewer.le
  · have hOld := hPending.version p hPlan
    omega

end Pending

theorem ends_planLive (hAt : c.At site done r) (hKnown : c.Known m) : Ends (Greedy.planLive t m) r
      (fun entry r' => c.At site done r' ∧ r.Around r' ∧ r.level.Unchanged r'.level ∧
        entry.1 = m ∧ c.Pending r'.level entry ∧ (entry.2 = none → c.Outdated m r.level))
      (fun fault _ => c.Allowed fault) := by
  have hPlan := c.plan hAt.level hKnown
  refine .get_bind ?_
  rcases hRun : (t.rules.plan m).runOn r.level with ⟨result, g⟩
  have hAr : r.Around { r with level := g } := (Run.Around.refl r).with_level g
  refine .modify_bind ?_
  split
  · rename_i p
    rcases hPlan.1 p g hRun with ⟨hGood, hFnd, hVer, hFit⟩
    have hU := (Reads.plan t.rules m).unchanged hRun
    refine .of_pure ⟨hAt.of_root rfl hGood, hAr, hU, rfl, ⟨hKnown, ?_, ?_, ?_⟩, ?_⟩
    · rintro _ ⟨⟩
      exact hFnd
    · rintro _ ⟨⟩
      exact hVer.le
    · rintro _ ⟨⟩ -
      exact hFit
    · exact fun hNever => nomatch hNever
  · rename_i rule root
    have hU := (Reads.plan t.rules m).unchanged_of_fails hRun
    have hNone : c.Pending g (m, none) := by
      constructor
      · exact hKnown
      all_goals exact fun p hNever => nomatch hNever
    exact .of_pure ⟨hAt.of_root rfl (hPlan.2 _ g hRun).1, hAr, hU, rfl, hNone,
      fun _ => ⟨⟨_, _, hAt.level⟩, _, g, ⟨rule, root, rfl⟩, hRun⟩⟩
  · rename_i fault hFresh
    refine .of_throw ((hPlan.2 fault g hRun).2.resolve_left ?_)
    rintro ⟨rule, root, rfl⟩
    exact hFresh rule root rfl

theorem ends_planAll (hAt : c.At site done r) {batch : List Match}
    (hKnown : ∀ m ∈ batch, c.Known m) : Ends (batch.mapM (Greedy.planLive t)) r
      (fun planned r' => c.At site done r' ∧ r.Around r' ∧ r.level.Unchanged r'.level ∧
        planned.map Prod.fst = batch ∧ (∀ entry ∈ planned, c.Pending r'.level entry) ∧
        ∀ entry ∈ planned, entry.2 = none → ∃ b, r.level.Unchanged b ∧ c.Outdated entry.1 b)
      (fun fault _ => c.Allowed fault) := by
  induction batch generalizing r with
  | nil =>
    rw [mapM_nil]
    exact .of_pure ⟨hAt, .refl r, .refl _, rfl, by simp, by simp⟩
  | cons m batch ih =>
    rw [mapM_cons]
    refine (ends_planLive hAt (hKnown m mem_cons_self)).bind ?_
    rintro entry r₁ ⟨hAt₁, hAr₁, hU₁, hMatch, hPending, hNone⟩
    refine (ih hAt₁ (fun n hM => hKnown n (mem_cons_of_mem _ hM))).bind ?_
    rintro planned r₂ ⟨hAt₂, hAr₂, hU₂, hMatches, hOthers, hNones⟩
    refine .of_pure ⟨hAt₂, hAr₁.trans hAr₂, hU₁.trans hU₂, ?_, ?_, ?_⟩
    · rw [map_cons, hMatch, hMatches]
    · intro other hM
      rcases mem_cons.mp hM with rfl | hTail
      · exact hPending.of_unchanged hU₂
      · exact hOthers other hTail
    · intro other hM hOther
      rcases mem_cons.mp hM with rfl | hTail
      · exact ⟨r.level, .refl _, hMatch ▸ hNone hOther⟩
      · rcases hNones other hTail hOther with ⟨b, hU, hOutdated⟩
        exact ⟨b, hU₁.trans hU, hOutdated⟩

theorem ends_refresh {a : Graph K} {h : List Step} (hGood : c.Good a h b) {p : Plan}
    (hPending : c.Pending b (p.found, some p)) : Ends (t.rules.refresh p) b
      (fun fresh b' => c.Good a h b' ∧ b.Unchanged b' ∧ fresh.1.found = p.found ∧ c.Fit fresh.1 b')
      (fun fault b' => c.Good a h b' ∧ b.Unchanged b' ∧ Fails (t.rules.plan p.found) b fault b' ∧
        (fault.Stale ∨ c.Allowed fault)) := by
  refine .get_bind (.of_ite (fun hVer => .of_pure ?_) (fun _ => ?_))
  · exact ⟨hGood, .refl b, rfl, hPending.fit p rfl hVer.symm⟩
  · have hPlan := c.plan hGood hPending.known
    have hReads := Reads.plan t.rules p.found
    refine Ends.bind (Q := fun fresh b' => c.Good a h b' ∧ b.Unchanged b' ∧ fresh.found = p.found ∧
      c.Fit fresh b') ⟨?_, ?_⟩ (fun fresh b' hFresh => .of_pure hFresh)
    · intro fresh b' hY
      rcases hPlan.1 fresh b' hY with ⟨hAfter, hFnd, -, hFit⟩
      exact ⟨hAfter, hReads.unchanged hY, hFnd, hFit⟩
    · intro fault b' hFails
      exact ⟨(hPlan.2 fault b' hFails).1, hReads.unchanged_of_fails hFails, hFails,
        (hPlan.2 fault b' hFails).2⟩

/- What came of committing one plan: nothing, or a step. -/
inductive Commits (c : Conduct t) (site : Site K) (done : List Step) (m : Match) (r : Run K) :
    Option Step → Run K → Prop where
  | stale {r' : Run K} (hAt : c.At site done r') (hU : r.level.Unchanged r'.level)
      (hOutdated : c.Outdated m r.level) :
      Commits c site done m r none r'
  | step {r' : Run K} {s : Step} (hAt : c.At site (done ++ [s]) r')
      (hNewer : r.level.version < r'.level.version)
      (hDer : c.Derives r.level [(m, s)] r'.level) :
      Commits c site done m r (some s) r'

theorem At.step (hAt : c.At site done r) {r' : Run K} (hRoot : r'.root = r.root) {s : Step}
    (hLevel : c.Good site.base (done ++ [s]) r'.level) (hPath : s.path = []) :
    c.At site (done ++ [s]) r' :=
  ⟨hRoot.trans hAt.root, hAt.around, hAt.place, hLevel, plain_append hAt.plain hPath⟩

theorem ends_commitLive (hAt : c.At site done r) {p : Plan}
    (hPending : c.Pending r.level (p.found, some p)) : Ends (Greedy.commitLive t p) r
      (fun step r' => r.Around r' ∧ c.Commits site done p.found r step r')
      (fun fault _ => c.Allowed fault) := by
  have hRefresh := ends_refresh hAt.level hPending
  refine .get_bind ?_
  rcases hRun : (t.rules.refresh p).runOn r.level with ⟨result, g⟩
  have hAr : r.Around { r with level := g } := (Run.Around.refl r).with_level g
  refine .modify_bind ?_
  dsimp only
  split
  · rcases hRefresh.2 _ g hRun with ⟨hGood, hU, hFails, -⟩
    exact .of_pure ⟨hAr, .stale (hAt.of_root rfl hGood) hU
      ⟨⟨_, _, hAt.level⟩, _, g, ⟨_, _, rfl⟩, hFails⟩⟩
  · rename_i fault hFresh
    refine .of_throw ((hRefresh.2 fault g hRun).2.2.2.resolve_left ?_)
    rintro ⟨rule, root, rfl⟩
    exact hFresh rule root rfl
  · rename_i fresh moved
    rcases hRefresh.1 _ g hRun with ⟨hGood, hU, hFnd, hFit⟩
    -- whether the plan has moved is noted or not, and then it is carried out
    have hThen : ∀ r₁ : Run K, r.Around r₁ → r₁.level = g → Ends (do
          let step ← Search.onLevel (t.rules.carryOut fresh)
          Search.note (.substituted step)
          return some step) r₁
        (fun step r' => r.Around r' ∧ c.Commits site done p.found r step r')
        (fun fault _ => c.Allowed fault) := by
      rintro r₁ hAr₁ rfl
      have hCarry := c.carryOut hGood hFit
      refine Ends.bind (Q := fun s r' => r.Around r' ∧ c.Good site.base (done ++ [s]) r'.level ∧
        r₁.level.version < r'.level.version ∧ s.path = [] ∧
        c.Derives r.level [(p.found, s)] r'.level)
        (Search.ends_onLevel (fun s g hY => ?_) (fun _ _ hFails => hCarry.2 _ _ hFails)) ?_
      · rcases hCarry.1 s g hY with ⟨hGood', hNewer⟩
        have hDer : c.Derives r.level [(fresh.found, s)] g :=
          .step hU ⟨_, _, hGood⟩ hFit hY (.done (.refl g))
        exact ⟨hAr₁.with_level g, hGood', hNewer, RuleSet.path_of_carryOut hY, hFnd ▸ hDer⟩
      · rintro s r₂ ⟨hAr₂, hGood₂, hNewer, hPath, hDer⟩
        rw [hU.2.1] at hNewer
        refine (Search.ends_note _).bind (fun _ r₃ hStill => .of_pure
          ⟨hAr₂.trans hStill.toAround, ?_⟩)
        have hRoot := hStill.root.trans hAr₂.root
        rw [← hStill.level] at hGood₂ hNewer hDer
        exact .step (hAt.step hRoot hGood₂ hPath) hNewer hDer
    refine .of_ite (fun _ => (Search.ends_note _).bind (fun _ r₁ hStill => ?_))
      (fun _ => hThen _ hAr rfl)
    exact hThen r₁ (hAr.trans hStill.toAround) hStill.level

def commitRest (t : Task K) (m : Match) (rest : List (Match × Option Plan)) (step : Option Step) :
    Search K (List Step × List Match) := do
  let (steps, stale) ← Greedy.commitAll t rest
  match step with
  | some s => return (s :: steps, stale)
  | none => return (steps, m :: stale)

def Overtaken (c : Conduct t) (level : Graph K) (carried : List (Match × Step))
    (m : Match) : Prop :=
  ∃ before b, before <+: carried ∧ c.Derives level before b ∧ c.Outdated m b

/-
  What came of committing a batch: the steps done, in the
  order of the batch, and the matches that were stale, some of
  them already before.
-/
structure Batched (c : Conduct t) (site : Site K) (done : List Step) (batch : List Match)
    (Old : Match → Prop) (r : Run K) (out : List Step × List Match) (r' : Run K) : Prop where
  here : c.At site (done ++ out.1) r'
  around : r.Around r'
  derives : ∃ carried, c.Derives r.level carried r'.level ∧ out.1 = carried.map Prod.snd ∧
    (carried.map Prod.fst ++ out.2).Perm batch ∧ (carried.map Prod.fst).Sublist batch ∧
    ∀ m ∈ out.2, Old m ∨ c.Overtaken r.level carried m

theorem Overtaken.of_unchanged {level level' : Graph K} {carried : List (Match × Step)}
    (hU : level.Unchanged level') (hOvertaken : c.Overtaken level' carried m) :
    c.Overtaken level carried m := by
  rcases hOvertaken with ⟨before, b, hPre, hDer, hOutdated⟩
  exact ⟨before, b, hPre, hDer.of_unchanged hU, hOutdated⟩

theorem Overtaken.cons {level level' : Graph K} {entry : Match × Step}
    {carried : List (Match × Step)} (hFirst : c.Derives level [entry] level')
    (hOvertaken : c.Overtaken level' carried m) : c.Overtaken level (entry :: carried) m := by
  rcases hOvertaken with ⟨before, b, hPre, hDer, hOutdated⟩
  exact ⟨entry :: before, b, prefix_cons_inj entry |>.mpr hPre, hFirst.trans hDer, hOutdated⟩

theorem ends_commitAll (hAt : c.At site done r) {planned : List (Match × Option Plan)}
    (hPending : ∀ entry ∈ planned, c.Pending r.level entry) {Old : Match → Prop}
    (hOld : ∀ entry ∈ planned, entry.2 = none → Old entry.1) :
    Ends (Greedy.commitAll t planned) r (c.Batched site done (planned.map Prod.fst) Old r)
      (fun fault _ => c.Allowed fault) := by
  induction planned generalizing r done with
  | nil =>
    exact .of_pure ⟨by rwa [append_nil], .refl r, [], .done (.refl _), rfl, .refl _, .refl _,
      by simp⟩
  | cons entry rest ih =>
    rcases entry with ⟨m, plan⟩
    have hEntry := hPending _ mem_cons_self
    have hRest : ∀ entry ∈ rest, entry.2 = none → Old entry.1 :=
      fun entry hM => hOld entry (mem_cons_of_mem _ hM)
    -- a match without a plan is stale from the start
    have hThen : ∀ (step : Option Step) (r₁ : Run K), r.Around r₁ →
        c.Commits site done m r step r₁ ∨
          step = none ∧ Old m ∧ c.At site done r₁ ∧ r.level.Unchanged r₁.level →
        Ends (commitRest t m rest step) r₁
        (c.Batched site done (((m, plan) :: rest).map Prod.fst) Old r)
        (fun fault _ => c.Allowed fault) := by
      intro step r₁ hAr hStep
      have hStale : step = none → c.At site done r₁ → r.level.Unchanged r₁.level →
          (Old m ∨ c.Outdated m r.level) → Ends (commitRest t m rest step) r₁
          (c.Batched site done (((m, plan) :: rest).map Prod.fst) Old r)
          (fun fault _ => c.Allowed fault) := by
        rintro rfl hAt₁ hU hLost
        have hOthers : ∀ other ∈ rest, c.Pending r₁.level other := fun other hM =>
          (hPending other (mem_cons_of_mem _ hM)).of_unchanged hU
        refine (ih hAt₁ hOthers hRest).bind ?_
        rintro ⟨steps, stale⟩ r₂ ⟨hAt₂, hAr₂, carried, hDer, hSteps, hPerm, hSub, hDropped⟩
        refine .of_pure ⟨hAt₂, hAr.trans hAr₂, carried, hDer.of_unchanged hU,
          hSteps, ?_, hSub.cons m, fun other hM => ?_⟩
        · exact perm_middle.trans (hPerm.cons m)
        · rcases mem_cons.mp hM with rfl | hTail
          · exact hLost.imp_right (fun hOutdated =>
              ⟨[], r.level, nil_prefix, .done (.refl _), hOutdated⟩)
          · exact (hDropped other hTail).imp_right (Overtaken.of_unchanged hU)
      rcases hStep with hStep | ⟨hNone, hLost, hAt₁, hU⟩
      · cases hStep with
        | stale hAt₁ hU hOutdated => exact hStale rfl hAt₁ hU (.inr hOutdated)
        | @step _ s hAt₁ hNewer hFirst =>
          have hOthers : ∀ other ∈ rest, c.Pending r₁.level other := fun other hM =>
            (hPending other (mem_cons_of_mem _ hM)).of_newer hNewer
          refine (ih hAt₁ hOthers hRest).bind ?_
          rintro ⟨steps, stale⟩ r₂ ⟨hAt₂, hAr₂, carried, hDer, hSteps, hPerm, hSub, hDropped⟩
          rw [append_assoc] at hAt₂
          exact .of_pure ⟨hAt₂, hAr.trans hAr₂, _, hFirst.trans hDer,
            congrArg (s :: ·) hSteps, hPerm.cons m, hSub.cons_cons m,
            fun other hM => (hDropped other hM).imp_right (Overtaken.cons hFirst)⟩
      · exact hStale hNone hAt₁ hU (.inl hLost)
    cases plan with
    | none =>
      exact hThen none r (.refl r) (.inr ⟨rfl, hOld _ mem_cons_self rfl, hAt, .refl _⟩)
    | some p =>
      obtain rfl : p.found = m := hEntry.found p rfl
      exact (ends_commitLive hAt hEntry).bind (fun step r₁ hStep =>
        hThen step r₁ hStep.1 (.inl hStep.2))

theorem ends_applyBatch (hAt : c.At site done r) {batch : List Match}
    (hKnown : ∀ m ∈ batch, c.Known m) :
    Ends (Greedy.applyBatch t batch) r (c.Batched site done batch (fun _ => False) r)
      (fun fault _ => c.Allowed fault) := by
  refine (ends_planAll hAt hKnown).bind ?_
  rintro planned r₁ ⟨hAt₁, hAr₁, hU, hMatches, hPending, hNone⟩
  let Old : Match → Prop := fun m => ∃ b, r.level.Unchanged b ∧ c.Outdated m b
  have hOld : ∀ entry ∈ planned, entry.2 = none → Old entry.1 := hNone
  refine (ends_commitAll hAt₁ hPending hOld).mono ?_ (fun _ _ hAlw => hAlw)
  rintro out r₂ ⟨hAt₂, hAr₂, carried, hDer, hSteps, hPerm, hSub, hDropped⟩
  refine ⟨hAt₂, hAr₁.trans hAr₂, carried, hDer.of_unchanged hU, hSteps,
    hMatches ▸ hPerm, hMatches ▸ hSub, fun m hM => .inr ?_⟩
  rcases hDropped m hM with ⟨b, hSame, hOutdated⟩ | hOvertaken
  · exact ⟨[], b, nil_prefix, .done hSame, hOutdated⟩
  · exact hOvertaken.of_unchanged hU

end Conduct

---- Rounds ----

namespace Greedy

def round (t : Task K) (path : List Nat) (fresh : Bool) (ms : List Match) :
    Search K (Option Status ⊕ Bool × List Match) := do
  let batch ← select t path ms
  if batch.isEmpty then
    if fresh then
      return .inl none
    else
      return .inr (true, ← Search.findInLevel t none)
  else
    match ← Search.exceeded t with
    | some stop => return .inl (some stop)
    | none =>
      let (steps, stale) ← applyBatch t batch
      stale.forM (fun m => Search.note (.staleDropped m))
      let known := stale.foldl List.erase ms
      if steps.isEmpty then
        return .inr (fresh, known)
      else
        recordBatch t path steps
        if t.settings.incremental then
          return .inr (false, ← rematch t steps known)
        else
          return .inr (fresh, ← Search.findInLevel t none)

def goOn (t : Task K) (path : List Nat) (fuel : Nat) :
    Option Status ⊕ Bool × List Match → Search K (Option Status)
  | .inl stop => return stop
  | .inr (fresh, ms) => loop t path fuel fresh ms

theorem loop_succ (t : Task K) (path : List Nat) (fuel : Nat) (fresh : Bool) (ms : List Match) :
    loop t path (fuel + 1) fresh ms = round t path fresh ms >>= goOn t path fuel := by
  unfold loop round
  simp only [bind_assoc]
  refine bind_congr (fun batch => ?_)
  split
  · split <;> simp [goOn]
  · simp only [bind_assoc]
    refine bind_congr (fun stop => ?_)
    cases stop with
    | some stop => simp [goOn]
    | none =>
      simp only [bind_assoc]
      refine bind_congr (fun out => bind_congr (fun _ => ?_))
      split
      · simp [goOn]
      · simp only [bind_assoc]
        refine bind_congr (fun _ => ?_)
        split <;> simp [goOn]

end Greedy

---- Greedy Searches ----

theorem mem_of_mem_foldl_erase {α : Type} [BEq α] {xs ys : List α} {x : α}
    (hM : x ∈ ys.foldl List.erase xs) : x ∈ xs := by
  induction ys generalizing xs with
  | nil => exact hM
  | cons y ys ih => exact mem_of_mem_erase (ih hM)

theorem length_foldl_erase_lt {α : Type} [BEq α] [LawfulBEq α] {xs ys : List α} (hSome : ys ≠ [])
    (hM : ∀ y ∈ ys, y ∈ xs) : (ys.foldl List.erase xs).length < xs.length := by
  have hAll : ∀ zs : List α, ∀ xs : List α, (zs.foldl List.erase xs).length ≤ xs.length := by
    intro zs
    induction zs with
    | nil => exact fun xs => Nat.le_refl _
    | cons z zs ih => exact fun xs => (ih _).trans (length_erase_le)
  cases ys with
  | nil => exact absurd rfl hSome
  | cons y ys =>
    refine Nat.lt_of_le_of_lt (hAll ys _) ?_
    have hFirst := hM y mem_cons_self
    rw [length_erase_of_mem hFirst]
    exact Nat.sub_lt (length_pos_of_mem hFirst) Nat.one_pos

/- Runs before and after a batch is counted, logged and measured. -/
structure Run.Counts (t : Task K) (path : List Nat) (steps : List Step) (r r' : Run K) : Prop where
  root : r'.root = r.root
  level : r'.level = r.level
  log : r'.log = r.log ++ steps.map (Step.located path)
  iterations : r'.iterations = r.iterations + 1
  readings : r.readings ≤ r'.readings
  rows : ∃ rows, r'.metrics = r.metrics ++ rows ∧ t.Measured (r.root.replaceAt path r.level) rows

namespace Conduct

variable {c : Conduct t} {site : Site K} {done : List Step}

omit [Scalar K] in
theorem Logged.of_around {r' : Run K} (hLogged : Logged site done r) (hAr : r.Around r') :
    Logged site done r' :=
  hAr.log.trans hLogged

theorem ends_recordBatch (hAt : c.At site done r) (steps : List Step) :
    Ends (Greedy.recordBatch t site.path steps) r (fun _ => r.Counts t site.path steps)
      (fun fault _ => c.Allowed fault) := by
  refine .modify_bind (.get_bind ?_)
  refine (ends_measure hAt.whole _).bind ?_
  rintro ⟨⟩ r₁ ⟨hStill₁, hRows⟩
  refine (Search.ends_note _).mono (fun _ r₂ hStill₂ => ?_) (fun _ _ hNever => hNever)
  have hStill := hStill₁.trans hStill₂
  rw [← hStill₂.metrics] at hRows
  exact ⟨hStill.root, hStill.level, hStill.log, hStill.iterations, hStill.readings, hRows⟩

theorem ends_rematch (hAt : c.At site done r) (hKnown : ∀ m ∈ ms, c.Known m) (steps : List Step) :
    Ends (Greedy.rematch t steps ms) r
      (fun found r' => c.At site done r' ∧ r.Around r' ∧ r.level.Unchanged r'.level ∧
        ∀ m ∈ found, c.Known m)
      (fun fault _ => c.Allowed fault) := by
  refine .get_bind ((ends_findInLevel hAt _).bind ?_)
  rintro found r₁ ⟨hAt₁, hAr₁, hU, hFnd, -⟩
  refine .of_pure ⟨hAt₁, hAr₁, hU, fun m hM => ?_⟩
  rw [Greedy.byRoot, mem_mergeSort, mem_append, mem_filter] at hM
  exact hM.elim (fun hOld => hKnown m hOld.1) (hFnd m)

/-
  What a round comes to:
    * `stop`: the search ends,
    * `rescan`: none of the matches known improves anything, so
      all matches are searched for again,
    * `drop`: the whole batch was stale, and it is forgotten,
    * `batch`: some steps were done, counted and logged.
-/
inductive Round (c : Conduct t) (site : Site K) (done : List Step) (fresh : Bool)
    (ms : List Match) (r : Run K) :
    Option Status ⊕ Bool × List Match → Run K → Prop where
  | stop {status : Option Status} {r' : Run K} (here : c.At site done r') (still : r.Still r')
      (cut : status ≠ some .fixpoint)
      (finished : status = none → fresh = true ∧ t.batch r site.path ms = []) :
      Round c site done fresh ms r (.inl status) r'
  | rescan {found : List Match} {r' : Run K} (stalled : fresh = false) (here : c.At site done r')
      (around : r.Around r') (unchanged : r.level.Unchanged r'.level)
      (known : ∀ m ∈ found, c.Known m)
      (all : Yields (t.rules.findMatches none) r.level found r'.level) :
      Round c site done fresh ms r (.inr (true, found)) r'
  | drop {left : List Match} {r' : Run K} (here : c.At site done r') (around : r.Around r')
      (unchanged : r.level.Unchanged r'.level) (fewer : left.length < ms.length)
      (known : ∀ m ∈ left, c.Known m)
      (outdated : ∃ m ∈ ms, ∃ b, r.level.Unchanged b ∧ c.Outdated m b) :
      Round c site done fresh ms r (.inr (fresh, left)) r'
  | batch {carried : List (Match × Step)} {next : Bool × List Match} {r₁ r₂ r' : Run K}
      (effective : carried ≠ []) (before : r.Around r₁) (goes : Search.GoesOn t r₁ r₂)
      (readings : r₂.readings ≤ r'.readings) (iterations : r'.iterations = r.iterations + 1)
      (here : c.At site (done ++ carried.map Prod.snd) r')
      (log : r'.log = r.log ++ (carried.map Prod.snd).map (Step.located site.path))
      (derives : c.Derives r.level carried r'.level) (chosen : ∀ entry ∈ carried, entry.1 ∈ ms)
      (known : ∀ m ∈ next.2, c.Known m)
      (picked : (carried.map Prod.fst).Sublist (t.batch r site.path ms))
      (rows : ∃ level rows, c.Good site.base (done ++ carried.map Prod.snd) level ∧
        level.Unchanged r'.level ∧ r'.metrics = r.metrics ++ rows ∧
        t.Measured (r.root.replaceAt site.path level) rows ∧
        (next.1 = true → Yields (t.rules.findMatches none) level next.2 r'.level)) :
      Round c site done fresh ms r (.inr next) r'

theorem Derives.unchanged (hDer : c.Derives b [] b') : b.Unchanged b' := by
  cases hDer
  assumption

theorem ends_round (hAt : c.At site done r) (hKnown : ∀ m ∈ ms, c.Known m) (fresh : Bool) :
    Ends (Greedy.round t site.path fresh ms) r (c.Round site done fresh ms r)
      (fun fault _ => c.Allowed fault) := by
  refine (ends_select hAt hKnown).bind ?_
  rintro batch r₁ ⟨hStill₁, hBatch⟩
  have hChosen : ∀ m ∈ batch, m ∈ ms := fun m hM => Task.mem_of_mem_batch (hBatch ▸ hM)
  have hAt₁ := hAt.of_still hStill₁
  refine .of_ite (fun hNone => .of_ite (fun hFresh => .of_pure (.stop hAt₁ hStill₁ nofun (fun _ =>
    ⟨hFresh, hBatch ▸ List.isEmpty_iff.mp hNone⟩))) (fun hStalled => ?_)) (fun hSome => ?_)
  · refine (ends_findInLevel hAt₁ none).bind ?_
    rintro found r₂ ⟨hAt₂, hAr₂, hU, hFnd, hAll⟩
    rw [hStill₁.level] at hU hAll
    exact .of_pure (.rescan (Bool.eq_false_iff.mpr hStalled) hAt₂ (hStill₁.toAround.trans hAr₂)
      hU hFnd hAll)
  · refine Search.ends_exceeded.bind ?_
    rintro stop r₂ ⟨hStill₂, hGoes, hLimit⟩
    have hAt₂ := hAt₁.of_still hStill₂
    cases stop with
    | some status =>
      refine .of_pure (.stop hAt₂ (hStill₁.trans hStill₂) ?_ nofun)
      rintro ⟨⟩
      simp at hLimit
    | none =>
      refine (ends_applyBatch hAt₂ (fun m hM => hKnown m (hChosen m hM))).bind ?_
      rintro ⟨steps, stale⟩ r₃ ⟨hAt₃, hAr₃, carried, hDer, hSteps, hPerm, hSub, hOvertaken⟩
      dsimp only at hAt₃ hSteps hPerm hOvertaken
      subst hSteps
      refine Ends.bind (Q := fun _ => r₃.Still) (.forM (.refl r₃) ?_) ?_
      · exact fun _ _ _ hStill => (Search.ends_note _).mono (fun _ _ => hStill.trans)
          (fun _ _ hNever => hNever)
      rintro ⟨⟩ r₄ hStill₄
      have hAt₄ := hAt₃.of_still hStill₄
      have hAr₄ := ((hStill₁.toAround.trans hStill₂.toAround).trans hAr₃).trans hStill₄.toAround
      rw [hStill₂.level, hStill₁.level] at hDer hOvertaken
      have hDer₄ : c.Derives r.level carried r₄.level := by rwa [← hStill₄.level] at hDer
      have hListed : ∀ m ∈ carried.map Prod.fst ++ stale, m ∈ ms := fun m hM =>
        hChosen m (hPerm.mem_iff.mp hM)
      have hL : ∀ m ∈ stale.foldl List.erase ms, c.Known m := fun m hM =>
        hKnown m (mem_of_mem_foldl_erase hM)
      refine .of_ite (fun hNone => ?_) (fun hEffective => ?_)
      · obtain rfl := map_eq_nil_iff.mp (List.isEmpty_iff.mp hNone)
        have hStale : stale ≠ [] := by
          rintro rfl
          exact hSome (List.isEmpty_iff.mpr hPerm.nil_eq.symm)
        rw [map_nil, append_nil] at hAt₄
        refine .of_pure (.drop hAt₄ hAr₄ hDer₄.unchanged
          (length_foldl_erase_lt hStale (fun m hM => hListed m (mem_append_right _ hM)))
          hL ?_)
        rcases exists_mem_of_ne_nil stale hStale with ⟨m, hM⟩
        rcases (hOvertaken m hM).resolve_left id with ⟨before, b, hPre, hBef, hOutdated⟩
        obtain rfl := prefix_nil.mp hPre
        exact ⟨m, hListed m (mem_append_right _ hM), b, hBef.unchanged, hOutdated⟩
      · have hCarr : carried ≠ [] := by
          rintro rfl
          exact hEffective rfl
        refine (ends_recordBatch hAt₄ (carried.map Prod.snd)).bind ?_
        rintro ⟨⟩ r₅ hCnt
        have hAt₅ := hAt₄.of_root hCnt.root (hCnt.level ▸ hAt₄.level)
        -- The search for the matches of the next round changes nothing.
        have hNext : ∀ (next : Bool × List Match) r₆, c.At site (done ++ carried.map Prod.snd) r₆ →
            r₅.Around r₆ → r₅.level.Unchanged r₆.level → (∀ m ∈ next.2, c.Known m) →
            (next.1 = true → Yields (t.rules.findMatches none) r₅.level next.2 r₆.level) →
            c.Round site done fresh ms r (.inr next) r₆ := by
          intro next r₆ hAt₆ hAr₆ hU hFnd hAll
          refine .batch hCarr hStill₁.toAround (hGoes rfl) ?_ ?_ hAt₆ ?_ ?_ ?_ hFnd
            (hBatch ▸ hSub) ⟨r₅.level, ?_⟩
          · exact (hAr₃.readings.trans hStill₄.readings).trans (hCnt.readings.trans hAr₆.readings)
          · rw [hAr₆.iterations, hCnt.iterations, hAr₄.iterations]
          · rw [hAr₆.log, hCnt.log, hAr₄.log]
          · rw [hCnt.level] at hU
            simpa using hDer₄.trans (.done hU)
          · exact fun entry hM => hListed _ (mem_append_left _ (mem_map_of_mem hM))
          · rcases hCnt.rows with ⟨rows, hRows, hMeasured⟩
            refine ⟨rows, hAt₅.level, hU, ?_, ?_, hAll⟩
            · rw [hAr₆.metrics, hRows, hAr₄.metrics]
            · rwa [hAr₄.root, ← hCnt.level] at hMeasured
        refine .of_ite (fun _ => ?_) (fun _ => ?_)
        · refine (ends_rematch hAt₅ hL _).bind ?_
          rintro found r₆ ⟨hAt₆, hAr₆, hU, hFnd⟩
          exact .of_pure (hNext (false, found) r₆ hAt₆ hAr₆ hU hFnd nofun)
        · refine (ends_findInLevel hAt₅ none).bind ?_
          rintro found r₆ ⟨hAt₆, hAr₆, hU, hFnd, hAll⟩
          exact .of_pure (hNext (fresh, found) r₆ hAt₆ hAr₆ hU hFnd (fun _ => hAll))

theorem ends_greedyLoop (hAt : c.At site done r) (hLogged : Logged site done r)
    (hKnown : ∀ m ∈ ms, c.Known m) (fuel : Nat) (fresh : Bool) :
    Ends (Greedy.loop t site.path fuel fresh ms) r
      (fun _ r' => ∃ done', c.At site done' r' ∧ Logged site done' r')
      (fun fault _ => c.Stops fault) := by
  induction fuel generalizing r done fresh ms with
  | zero => exact .of_throw (.inr rfl)
  | succ fuel ih =>
    rw [Greedy.loop_succ]
    refine ((ends_round hAt hKnown fresh).mono (fun _ _ h => h) (fun _ _ => .inl)).bind ?_
    intro next r' hRound
    cases hRound with
    | stop hHere hStill => exact .of_pure ⟨done, hHere, hLogged.of_around hStill.toAround⟩
    | rescan _ hHere hAr _ hFnd => exact ih hHere (hLogged.of_around hAr) hFnd true
    | drop hHere hAr _ _ hL => exact ih hHere (hLogged.of_around hAr) hL fresh
    | batch _ _ _ _ _ hHere hLog _ _ hFnd =>
      refine ih hHere ?_ hFnd _
      rw [Logged, hLog, hLogged, map_append, append_assoc]

theorem ends_greedy (hAt : c.At site done r) (hLogged : Logged site done r) (fuel : Nat) :
    Ends (Greedy.optimize t fuel site.path) r
      (fun _ r' => ∃ done', c.At site done' r' ∧ Logged site done' r')
      (fun fault _ => c.Stops fault) := by
  refine ((ends_findInLevel hAt none).mono (fun _ _ h => h) (fun _ _ => .inl)).bind ?_
  rintro found r₁ ⟨hAt₁, hAr₁, -, hFnd, -⟩
  exact ends_greedyLoop hAt₁ (hLogged.of_around hAr₁) hFnd fuel true

section

variable {P : Run K → Prop}
  (hStill : ∀ {done : List Step} {r r' : Run K}, c.At site done r → c.At site done r' →
    r.Around r' → r.level.Unchanged r'.level → P r → P r')
  (hBatch : ∀ {done : List Step} {fresh : Bool} {ms : List Match} {next : Bool × List Match}
    {r r' : Run K}, c.At site done r → c.Round site done fresh ms r (.inr next) r' →
    r'.iterations = r.iterations + 1 → P r → P r')
  (hAt : c.At site done r) (hInv : P r)

include hStill hBatch hAt hInv

/-
  What is known of the runs before and after rounds.  What
  holds of a run of the greedy search holds of the run at its
  end, if re-ranking keeps it and each round that counts as an
  iteration does.
-/
theorem ends_greedyLoop_of (hKnown : ∀ m ∈ ms, c.Known m) (fuel : Nat) (fresh : Bool) :
    Ends (Greedy.loop t site.path fuel fresh ms) r (fun _ => P) (fun _ _ => True) := by
  induction fuel generalizing r done fresh ms with
  | zero => exact .of_throw trivial
  | succ fuel ih =>
    rw [Greedy.loop_succ]
    refine (ends_round hAt hKnown fresh).loosen.bind (fun next r' hRound => ?_)
    have hCounted := fun {next' : Bool × List Match} (hNext : next = .inr next') hIter =>
      hBatch hAt (hNext ▸ hRound) hIter hInv
    cases hRound with
    | stop hHere hSame =>
      exact .of_pure (hStill hAt hHere hSame.toAround (hSame.level ▸ .refl _) hInv)
    | rescan _ hHere hAr hU hFnd =>
      exact ih hHere (hStill hAt hHere hAr hU hInv) hFnd true
    | drop hHere hAr hU _ hL =>
      exact ih hHere (hStill hAt hHere hAr hU hInv) hL fresh
    | batch _ _ _ _ hIter hHere _ _ _ hFnd =>
      exact ih hHere (hCounted rfl hIter) hFnd _

theorem ends_greedy_of (fuel : Nat) :
    Ends (Greedy.optimize t fuel site.path) r (fun _ => P) (fun _ _ => True) := by
  refine (ends_findInLevel hAt none).loosen.bind ?_
  rintro found r₁ ⟨hAt₁, hAr₁, hU, hFnd, -⟩
  exact ends_greedyLoop_of hStill hBatch hAt₁ (hStill hAt hAt₁ hAr₁ hU hInv) hFnd fuel true

end

end Conduct

end CircuitGraph
