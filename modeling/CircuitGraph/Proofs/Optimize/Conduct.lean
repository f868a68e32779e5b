import CircuitGraph.Proofs.Graph.Levels
import CircuitGraph.Proofs.Substitution.Commit

/-
  What searches keep.

  A search finds matches, plans and carries out substitutions,
  copies graphs and measures them, and it does nothing else
  with graphs.
-/

---- Conduct ----

namespace CircuitGraph

def Fault.Stale (fault : Fault) : Prop :=
  ∃ rule root, fault = .stale rule root

def Step.located (path : List Nat) (s : Step) : Step :=
  { s with path := path }

variable {K : Type} [Scalar K]

/-
  What a search may rely on:
    * `Good`: what holds of a graph that has come from another
      by some steps,
    * `Known`: what holds of a match that is found,
    * `Fit`: what holds of a plan and the graph it is made for,
    * `Allowed`: the faults that a search may end with.
-/
structure Conduct (t : Task K) where
  Good : Graph K → List Step → Graph K → Prop
  Known : Match → Prop
  Fit : Plan → Graph K → Prop
  Allowed : Fault → Prop
  body : ∀ {a b body : Graph K} {h : List Step} {path : List Nat}, Good a h b →
    b.bodyAt? path = some body → Good body [] body
  replace : ∀ {a b body body' : Graph K} {h h' : List Step} {path : List Nat}, Good a h b →
    b.bodyAt? path = some body → Good body h' body' → (∀ s ∈ h', s.path = []) →
    Good a (h ++ h'.map (Step.located path)) (b.replaceAt path body')
  copy : ∀ {a b : Graph K} {h : List Step}, Good a h b → Good a h b.copy
  takeOver : ∀ {a b b' : Graph K} {h : List Step}, Good a [] b → Good a h b' →
    Good a h (b.takeOver b')
  find : ∀ {a b : Graph K} {h : List Step} (among : Option (List Slot)), Good a h b →
    Ends (t.rules.findMatches among) b (fun ms b' => Good a h b' ∧ ∀ m ∈ ms, Known m)
      (fun fault _ => Allowed fault)
  plan : ∀ {a b : Graph K} {h : List Step} {m : Match}, Good a h b → Known m →
    Ends (t.rules.plan m) b
      (fun p b' => Good a h b' ∧ p.found = m ∧ p.version = b'.version ∧ Fit p b')
      (fun fault b' => Good a h b' ∧ (fault.Stale ∨ Allowed fault))
  fit : ∀ {b b' : Graph K} {p : Plan}, Fit p b → b.Unchanged b' → Fit p b'
  carryOut : ∀ {a b : Graph K} {h : List Step} {p : Plan}, Good a h b → Fit p b →
    Ends (t.rules.carryOut p) b (fun s b' => Good a (h ++ [s]) b' ∧ b.version < b'.version)
      (fun fault _ => Allowed fault)
  cost : ∀ {a b : Graph K} {h : List Step} {fault : Fault}, Good a h b →
    t.cost.eval b = .error fault → Allowed fault
  depth : ∀ {a b : Graph K} {h : List Step} {fault : Fault}, Good a h b →
    b.depth = .error fault → Allowed fault
  fingerprint : ∀ {a b : Graph K} {h : List Step} {fault : Fault}, Good a h b →
    b.fingerprint = .error fault → Allowed fault
  queue : t.settings.mode = .bounded → t.settings.queueKept = none → Allowed .wrongType

/-
  Where a search works: the graph that it started from, the
  steps done elsewhere before and the graph that they led to,
  the path of the level, and the graph that was there.
-/
structure Site (K : Type) where
  start : Graph K
  before : List Step
  root : Graph K
  path : List Nat
  base : Graph K

namespace Conduct

variable {t : Task K}

def Stops (c : Conduct t) (fault : Fault) : Prop :=
  c.Allowed fault ∨ fault = .outOfFuel

/- Where a search stands: some steps were done at a level of a good graph. -/
structure At (c : Conduct t) (site : Site K) (done : List Step) (r : Run K) : Prop where
  root : r.root = site.root
  around : c.Good site.start site.before site.root
  place : site.root.bodyAt? site.path = some site.base
  level : c.Good site.base done r.level
  plain : ∀ s ∈ done, s.path = []

def Logged (site : Site K) (done : List Step) (r : Run K) : Prop :=
  r.log = site.before ++ done.map (Step.located site.path)

variable {c : Conduct t} {site : Site K} {done : List Step} {r r' : Run K}

omit [Scalar K] in
theorem plain_append {s : Step} (hPlain : ∀ s' ∈ done, s'.path = []) (hPath : s.path = []) :
    ∀ s' ∈ done ++ [s], s'.path = [] := by
  intro s' hM
  rcases List.mem_append.mp hM with hOld | hNew
  · exact hPlain s' hOld
  · rwa [List.mem_singleton.mp hNew]

namespace At

theorem whole (hAt : c.At site done r) :
    c.Good site.start (site.before ++ done.map (Step.located site.path))
      (r.root.replaceAt site.path r.level) :=
  hAt.root ▸ c.replace hAt.around hAt.place hAt.level hAt.plain

theorem of_root (hAt : c.At site done r) (hRoot : r'.root = r.root)
    (hLevel : c.Good site.base done r'.level) : c.At site done r' :=
  ⟨hRoot.trans hAt.root, hAt.around, hAt.place, hLevel, hAt.plain⟩

end At

end Conduct

---- Parts of a Search ----

variable {K : Type} {α : Type}

/- Runs that differ at most in their level and in what they have noted. -/
structure Run.Around (r r' : Run K) : Prop where
  root : r'.root = r.root
  log : r'.log = r.log
  iterations : r'.iterations = r.iterations
  readings : r.readings ≤ r'.readings
  metrics : r'.metrics = r.metrics
  events : r.events ⊆ r'.events

/- Runs that have the same level too. -/
structure Run.Still (r r' : Run K) : Prop extends r.Around r' where
  level : r'.level = r.level

namespace Run

theorem Around.refl (r : Run K) : r.Around r :=
  ⟨rfl, rfl, rfl, Nat.le_refl _, rfl, List.Subset.refl _⟩

theorem Around.trans {r r₁ r₂ : Run K} (hL : r.Around r₁) (hR : r₁.Around r₂) : r.Around r₂ :=
  ⟨hR.root.trans hL.root, hR.log.trans hL.log,
    hR.iterations.trans hL.iterations, hL.readings.trans hR.readings,
    hR.metrics.trans hL.metrics, List.Subset.trans hL.events hR.events⟩

theorem Around.with_level {r r' : Run K} (hAr : r.Around r') (g : Graph K) :
    r.Around { r' with level := g } :=
  { hAr with }

theorem Still.refl (r : Run K) : r.Still r :=
  ⟨.refl r, rfl⟩

theorem Still.trans {r r₁ r₂ : Run K} (hL : r.Still r₁) (hR : r₁.Still r₂) : r.Still r₂ :=
  ⟨hL.toAround.trans hR.toAround, hR.level.trans hL.level⟩

end Run

namespace Search

variable {r : Run K} {Q : α → Run K → Prop} {E : Fault → Run K → Prop}

theorem ends_ofExcept {x : Except Fault α} (hOk : ∀ a, x = .ok a → Q a r)
    (hFault : ∀ fault, x = .error fault → E fault r) : Ends (ofExcept x) r Q E := by
  cases x with
  | ok a => exact .of_pure (hOk a rfl)
  | error fault => exact .of_throw (hFault fault rfl)

theorem ends_onLevel {e : Edit K α} (hOk : ∀ a g, Yields e r.level a g → Q a { r with level := g })
    (hFault : ∀ fault g, Fails e r.level fault g → E fault { r with level := g }) :
    Ends (onLevel e) r Q E := by
  refine .get_bind ?_
  rcases hRun : e.runOn r.level with ⟨result, g⟩
  refine .modify_bind ?_
  cases result with
  | ok a => exact .of_pure (hOk a g hRun)
  | error fault => exact .of_throw (hFault fault g hRun)

theorem ends_note (e : Event K) : Ends (note e) r (fun _ => r.Still) E :=
  .of_modify ⟨⟨rfl, rfl, rfl, Nat.le_refl _, rfl, List.subset_append_left _ _⟩, rfl⟩

/- What the answer that a search may go on rests on. -/
structure GoesOn (t : Task K) (r r' : Run K) : Prop where
  iterations : ∀ limit, t.settings.maxIterations = some limit → r.iterations < limit
  timeout : ∀ limit, t.settings.timeout = some limit →
    r'.readings = r.readings + 1 ∧ ¬ limit ≤ t.clock r.readings

theorem ends_exceeded {t : Task K} :
    Ends (exceeded t) r (fun stop r' => r.Still r' ∧ (stop = none → GoesOn t r r') ∧
      ∀ status ∈ stop, status = .iterationBudget ∨ status = .timeout) E := by
  refine .get_bind (.of_ite (fun _ => .of_pure ⟨.refl r, by simp, by simp⟩) (fun hMore => ?_))
  have hIter : ∀ limit, t.settings.maxIterations = some limit → r.iterations < limit := by
    intro limit hLimit
    simpa [hLimit] using hMore
  refine Ends.bind (Q := fun late r' => r.Still r' ∧ (late = false →
    ∀ limit, t.settings.timeout = some limit →
      r'.readings = r.readings + 1 ∧ ¬ limit ≤ t.clock r.readings)) ?_ ?_
  · unfold timeIsOver
    split
    · rename_i hNone
      exact .of_pure ⟨.refl r, by simp [hNone]⟩
    · rename_i limit hLimit
      refine Ends.bind (Q := fun time r' => r.Still r' ∧ r'.readings = r.readings + 1 ∧
        time = t.clock r.readings) ?_ ?_
      · exact .get_bind (.set_bind (.of_pure
          ⟨⟨⟨rfl, rfl, rfl, Nat.le_succ _, rfl, List.Subset.refl _⟩, rfl⟩, rfl, rfl⟩))
      · rintro time r' ⟨hStill, hReadings, rfl⟩
        refine .of_pure ⟨hStill, fun hOver other hOther => ?_⟩
        obtain rfl := eq_of_some hLimit hOther
        exact ⟨hReadings, of_decide_eq_false hOver⟩
  · rintro late r' ⟨hStill, hTime⟩
    cases late with
    | true => exact .of_pure ⟨hStill, by simp, by simp⟩
    | false => exact .of_pure ⟨hStill, fun _ => ⟨hIter, hTime rfl⟩, by simp⟩

end Search

variable [Scalar K]

def Task.Measured (t : Task K) (g : Graph K) (rows : List (Metrics K)) : Prop :=
  if t.settings.verbosity = 0 then rows = []
  else ∃ row : Metrics K, rows = [row] ∧ t.cost.eval g = .ok row.cost

/- The graph whose cost is that of a level. -/
def Task.whole (t : Task K) (root : Graph K) (path : List Nat) (g : Graph K) : Graph K :=
  if path.isEmpty || t.cost.isLocal then g else root.replaceAt path g

omit [Scalar K] in
theorem Task.whole_of_global {t : Task K} (hGlobal : ¬ t.cost.isLocal = true) (root : Graph K)
    (path : List Nat) : t.whole root path = root.replaceAt path := by
  funext g
  cases path with
  | nil => rfl
  | cons n path => exact if_neg (by simpa using hGlobal)

/- What a match leads to on a copy of a graph. -/
def RuleSet.attempt (rs : RuleSet K) (m : Match) (g : Graph K) : Option (Step × Graph K) :=
  match (rs.apply m).runOn g.copy with
  | (.ok step, g') => some (step, g')
  | (.error _, _) => none

theorem RuleSet.attempt_eq_some_iff {rs : RuleSet K} {m : Match} {g g' : Graph K} {step : Step} :
    rs.attempt m g = some (step, g') ↔ Yields (rs.apply m) g.copy step g' := by
  change _ ↔ (rs.apply m).runOn g.copy = (.ok step, g')
  unfold attempt
  rcases (rs.apply m).runOn g.copy with ⟨_ | _, _⟩ <;> simp

/- Runs before and after a graph is measured. -/
structure Run.Measures (t : Task K) (g : Graph K) (r r' : Run K) : Prop where
  still : { r with metrics := r'.metrics }.Still r'
  rows : ∃ rows, r'.metrics = r.metrics ++ rows ∧ t.Measured g rows

namespace Conduct

variable {t : Task K} {c : Conduct t} {site : Site K} {done : List Step} {r r' : Run K}

namespace At

theorem of_still (hAt : c.At site done r) (hStill : r.Still r') : c.At site done r' :=
  hAt.of_root hStill.root (hStill.level ▸ hAt.level)

theorem of_metrics (hAt : c.At site done r) (rows : List (Metrics K)) :
    c.At site done { r with metrics := rows } :=
  hAt.of_root rfl hAt.level

end At

theorem ends_score (hAt : c.At site done r) {g : Graph K} {h : List Step}
    (hGood : c.Good site.base h g) (hPlain : ∀ s ∈ h, s.path = []) :
    Ends (Search.score t site.path g) r
      (fun value r' => r = r' ∧ t.cost.eval (t.whole r.root site.path g) = .ok value)
      (fun fault _ => c.Allowed fault) := by
  unfold Task.whole
  refine .of_ite (fun hHere => ?_) (fun hThere => .get_bind ?_)
  · rw [if_pos hHere]
    exact Search.ends_ofExcept (fun _ hValue => ⟨rfl, hValue⟩) (fun _ hFault => c.cost hGood hFault)
  · rw [if_neg hThere]
    refine Search.ends_ofExcept (fun _ hValue => ⟨rfl, hValue⟩) (fun _ hFault => ?_)
    rw [hAt.root] at hFault
    exact c.cost (c.replace hAt.around hAt.place hGood hPlain) hFault

theorem ends_measure {a g : Graph K} {h : List Step} (hGood : c.Good a h g) (steps : Nat) :
    Ends (Search.measure t g steps) r (fun _ => r.Measures t g) (fun fault _ => c.Allowed fault) := by
  refine .of_ite (fun hSpeaks => ?_) (fun hMute => .of_pure ⟨.refl r, [], by simp, ?_⟩)
  · refine (Search.ends_ofExcept (Q := fun cost r' => r = r' ∧ t.cost.eval g = .ok cost)
      (fun _ hCost => ⟨rfl, hCost⟩) (fun _ hFault => c.cost hGood hFault)).bind ?_
    rintro cost _ ⟨rfl, hCost⟩
    refine (Search.ends_ofExcept (Q := fun _ r' => r = r') (fun _ _ => rfl)
      (fun _ hFault => c.depth hGood hFault)).bind ?_
    rintro _ _ rfl
    refine .of_modify ⟨.refl _, _, rfl, ?_⟩
    rw [Task.Measured, if_neg hSpeaks]
    exact ⟨_, rfl, hCost⟩
  · rw [Task.Measured, if_pos (not_not.mp hMute)]

theorem ends_findMatches {a g : Graph K} {h : List Step} (hGood : c.Good a h g)
    (among : Option (List Slot)) : Ends (Search.findMatches t g among) r
      (fun found r' => r.Still r' ∧ c.Good a h found.2 ∧ g.Unchanged found.2 ∧
        (∀ m ∈ found.1, c.Known m) ∧ Yields (t.rules.findMatches among) g found.1 found.2)
      (fun fault _ => c.Allowed fault) := by
  have hFind := c.find among hGood
  unfold Search.findMatches
  rcases hRun : (t.rules.findMatches among).runOn g with ⟨result, g'⟩
  cases result with
  | error fault => exact Ends.throw_bind (hFind.2 fault g' hRun)
  | ok found =>
    rcases hFind.1 found g' hRun with ⟨hAfter, hKnown⟩
    have hU := (Reads.findMatches t.rules among).unchanged hRun
    simp only [Search.ofExcept, pure_bind]
    exact (Search.ends_note _).bind (fun _ _ hStill =>
      .of_pure ⟨hStill, hAfter, hU, hKnown, hRun⟩)

theorem ends_findInLevel (hAt : c.At site done r) (among : Option (List Slot)) :
    Ends (Search.findInLevel t among) r
      (fun found r' => c.At site done r' ∧ r.Around r' ∧ r.level.Unchanged r'.level ∧
        (∀ m ∈ found, c.Known m) ∧ Yields (t.rules.findMatches among) r.level found r'.level)
      (fun fault _ => c.Allowed fault) := by
  refine .get_bind ((ends_findMatches hAt.level among).bind ?_)
  rintro ⟨found, g⟩ r' ⟨hStill, hGood, hU, hFnd⟩
  exact .modify_bind (.of_pure ⟨hAt.of_root hStill.root hGood, hStill.toAround.with_level g,
    hU, hFnd⟩)

theorem ends_apply {a g : Graph K} {h : List Step} {m : Match} (hGood : c.Good a h g)
    (hKnown : c.Known m) : Ends (t.rules.apply m) g (fun s g' => c.Good a (h ++ [s]) g')
      (fun fault _ => fault.Stale ∨ c.Allowed fault) := by
  refine RuleSet.ends_apply ((c.plan hGood hKnown).mono ?_ (fun _ _ hFault => hFault.2))
  rintro p g' ⟨hAfter, -, hVer, hFit⟩
  exact ⟨hVer, (c.carryOut hAfter hFit).mono (fun _ _ hDone => hDone.1) (fun _ _ hAlw => .inr hAlw)⟩

theorem ends_applyTo {a g : Graph K} {h : List Step} {m : Match} (hGood : c.Good a h g)
    (hKnown : c.Known m) : Ends (Search.applyTo t g m) r
      (fun done r' => r.Still r' ∧ done = t.rules.attempt m g ∧
        ∀ s g', done = some (s, g') → c.Good a (h ++ [s]) g' ∧ s.path = [])
      (fun fault _ => c.Allowed fault) := by
  have hApply := ends_apply (c.copy hGood) hKnown
  unfold Search.applyTo RuleSet.attempt
  rcases hRun : (t.rules.apply m).runOn g.copy with ⟨result, g'⟩
  dsimp only
  split
  · rename_i step
    refine (Search.ends_note _).bind (fun _ r' hStill => .of_pure ⟨hStill, rfl, ?_⟩)
    intro step' g'' hSome
    obtain ⟨rfl, rfl⟩ := Prod.mk.inj (Option.some.inj hSome)
    exact ⟨hApply.1 step g' hRun, RuleSet.path_of_apply hRun⟩
  · exact .of_pure ⟨.refl r, rfl, fun _ _ hSome => nomatch hSome⟩
  · rename_i fault hFresh
    refine .of_throw ((hApply.2 fault g' hRun).resolve_left ?_)
    rintro ⟨rule, root, rfl⟩
    exact hFresh rule root rfl

end Conduct

---- Refinements ----

variable {t : Task K}

/-
  What else a search keeps, given what it keeps already:
    * `Extra`: what else holds of a graph that has come from
      another by some steps,
    * `Sure`: what else holds of a plan and the graph it is
      made for.
-/
structure Conduct.Refinement (c : Conduct t) where
  Extra : Graph K → List Step → Graph K → Prop
  Sure : Plan → Graph K → Prop
  body : ∀ {a b body : Graph K} {h : List Step} {path : List Nat}, c.Good a h b →
    b.bodyAt? path = some body → Extra body [] body
  replace : ∀ {a b body body' : Graph K} {h h' : List Step} {path : List Nat}, c.Good a h b →
    Extra a h b → b.bodyAt? path = some body → c.Good body h' body' → Extra body h' body' →
    (∀ s ∈ h', s.path = []) → Extra a (h ++ h'.map (Step.located path)) (b.replaceAt path body')
  copy : ∀ {a b : Graph K} {h : List Step}, c.Good a h b → Extra a h b → Extra a h b.copy
  takeOver : ∀ {a b b' : Graph K} {h : List Step}, c.Good a [] b → Extra a [] b → c.Good a h b' →
    Extra a h b' → Extra a h (b.takeOver b')
  unchanged : ∀ {a b b' : Graph K} {h : List Step}, c.Good a h b → Extra a h b → b.Unchanged b' →
    Extra a h b'
  plan : ∀ {a b b' : Graph K} {h : List Step} {m : Match} {p : Plan}, c.Good a h b → c.Known m →
    Yields (t.rules.plan m) b p b' → Sure p b'
  fit : ∀ {b b' : Graph K} {p : Plan}, Sure p b → b.Unchanged b' → Sure p b'
  carryOut : ∀ {a b b' : Graph K} {h : List Step} {p : Plan} {s : Step}, c.Good a h b →
    Extra a h b → c.Fit p b → Sure p b → Yields (t.rules.carryOut p) b s b' → Extra a (h ++ [s]) b'

def Conduct.Refinement.conduct {c : Conduct t} (x : c.Refinement) : Conduct t where
  Good a h b := c.Good a h b ∧ x.Extra a h b
  Known := c.Known
  Fit p b := c.Fit p b ∧ x.Sure p b
  Allowed := c.Allowed
  body hGood hB := ⟨c.body hGood.1 hB, x.body hGood.1 hB⟩
  replace hGood hB hIn hPlain :=
    ⟨c.replace hGood.1 hB hIn.1 hPlain,
      x.replace hGood.1 hGood.2 hB hIn.1 hIn.2 hPlain⟩
  copy hGood := ⟨c.copy hGood.1, x.copy hGood.1 hGood.2⟩
  takeOver hL hR :=
    ⟨c.takeOver hL.1 hR.1, x.takeOver hL.1 hL.2 hR.1 hR.2⟩
  find among hGood := by
    refine ⟨fun ms b' hY => ?_, (c.find among hGood.1).2⟩
    rcases (c.find among hGood.1).1 ms b' hY with ⟨hAfter, hKnown⟩
    have hU := (Reads.findMatches t.rules among).unchanged hY
    exact ⟨⟨hAfter, x.unchanged hGood.1 hGood.2 hU⟩, hKnown⟩
  plan {_ _ _ m} hGood hKnown := by
    refine ⟨fun p b' hY => ?_, fun fault b' hFails => ?_⟩
    · rcases (c.plan hGood.1 hKnown).1 p b' hY with ⟨hAfter, hFnd, hVer, hFit⟩
      have hU := (Reads.plan t.rules m).unchanged hY
      exact ⟨⟨hAfter, x.unchanged hGood.1 hGood.2 hU⟩, hFnd, hVer, hFit,
        x.plan hGood.1 hKnown hY⟩
    · rcases (c.plan hGood.1 hKnown).2 fault b' hFails with ⟨hAfter, hFault⟩
      have hU := (Reads.plan t.rules m).unchanged_of_fails hFails
      exact ⟨⟨hAfter, x.unchanged hGood.1 hGood.2 hU⟩, hFault⟩
  fit hFit hU := ⟨c.fit hFit.1 hU, x.fit hFit.2 hU⟩
  carryOut hGood hFit := by
    refine ⟨fun s b' hY => ?_, (c.carryOut hGood.1 hFit.1).2⟩
    rcases (c.carryOut hGood.1 hFit.1).1 s b' hY with ⟨hAfter, hVer⟩
    exact ⟨⟨hAfter, x.carryOut hGood.1 hGood.2 hFit.1 hFit.2 hY⟩, hVer⟩
  cost hGood := c.cost hGood.1
  depth hGood := c.depth hGood.1
  fingerprint hGood := c.fingerprint hGood.1
  queue := c.queue

end CircuitGraph
