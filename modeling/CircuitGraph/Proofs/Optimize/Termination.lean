import CircuitGraph.Proofs.Optimize.Levels

/-
  When optimisations come to an end.

  Rounds are bounded by a number.  A search settles if all
  large bounds give the same outcome, which is then reached
  without the bound.
-/

---- Settling ----

namespace CircuitGraph

variable {α β σ : Type}

/- Whether all large bounds give one outcome that is not owed to the bound. -/
def Settles (e : Nat → ExceptT Fault (StateM σ) α) (s : σ) : Prop :=
  ∃ n x, x.1 ≠ .error .outOfFuel ∧ ∀ fuel, n ≤ fuel → outcome (e fuel) s = x

namespace Settles

variable {e : Nat → ExceptT Fault (StateM σ) α} {s : σ}

theorem of_ends {e : ExceptT Fault (StateM σ) α} {Q : α → σ → Prop} {E : Fault → σ → Prop}
    (hEnds : Ends e s Q E) (hBound : ∀ s', ¬ E .outOfFuel s') : Settles (fun _ => e) s := by
  refine ⟨0, outcome e s, fun hFault => ?_, fun _ _ => rfl⟩
  exact hBound _ (hEnds.2 .outOfFuel (outcome e s).2 (Prod.ext hFault rfl))

theorem of_pure (a : α) : Settles (fun _ => (pure a : ExceptT Fault (StateM σ) α)) s :=
  of_ends (Q := fun _ _ => True) (E := fun _ _ => False) (.of_pure trivial) (fun _ hNever => hNever)

theorem of_succ (hSettles : Settles (fun fuel => e (fuel + 1)) s) : Settles e s := by
  rcases hSettles with ⟨n, x, hBound, hSame⟩
  refine ⟨n + 1, x, hBound, fun fuel hLe => ?_⟩
  cases fuel with
  | zero => exact absurd hLe (Nat.not_succ_le_zero n)
  | succ fuel => exact hSame fuel (Nat.le_of_succ_le_succ hLe)

theorem bind {f : Nat → α → ExceptT Fault (StateM σ) β} (hFirst : Settles e s)
    (hThen : ∀ fuel a s', Yields (e fuel) s a s' → Settles (fun fuel => f fuel a) s') :
    Settles (fun fuel => e fuel >>= f fuel) s := by
  rcases hFirst with ⟨n, ⟨result, s'⟩, hBound, hSame⟩
  cases result with
  | error fault =>
    refine ⟨n, (.error fault, s'), fun hFault => hBound ?_, fun fuel hLe => ?_⟩
    · simpa using hFault
    · rw [outcome_bind, hSame fuel hLe]
  | ok a =>
    rcases hThen n a s' (hSame n (Nat.le_refl n)) with ⟨m, x, hBound', hSame'⟩
    refine ⟨max n m, x, hBound', fun fuel hLe => ?_⟩
    rw [outcome_bind, hSame fuel (Nat.le_trans (Nat.le_max_left n m) hLe)]
    exact hSame' fuel (Nat.le_trans (Nat.le_max_right n m) hLe)

theorem ends_bind {e : ExceptT Fault (StateM σ) α} {f : Nat → α → ExceptT Fault (StateM σ) β}
    {Q : α → σ → Prop} {E : Fault → σ → Prop} (hEnds : Ends e s Q E)
    (hBound : ∀ s', ¬ E .outOfFuel s')
    (hThen : ∀ a s', Q a s' → Settles (fun fuel => f fuel a) s') :
    Settles (fun fuel => e >>= f fuel) s :=
  (of_ends hEnds hBound).bind (fun _ a s' hY => hThen a s' (hEnds.1 a s' hY))

theorem get_bind {f : Nat → σ → ExceptT Fault (StateM σ) β}
    (hThen : Settles (fun fuel => f fuel s) s) : Settles (fun fuel => get >>= f fuel) s :=
  hThen

theorem modify_bind {h : σ → σ} {f : Nat → PUnit → ExceptT Fault (StateM σ) β}
    (hThen : Settles (fun fuel => f fuel ⟨⟩) (h s)) : Settles (fun fuel => modify h >>= f fuel) s :=
  hThen

theorem exists_yields {Q : α → σ → Prop} {E : Fault → σ → Prop} (hSettles : Settles e s)
    (hEnds : ∀ fuel, Ends (e fuel) s Q (fun fault s' => E fault s' ∨ fault = .outOfFuel)) :
    ∃ n, (∃ a s', Q a s' ∧ ∀ fuel, n ≤ fuel → Yields (e fuel) s a s') ∨
      ∃ fault s', E fault s' ∧ ∀ fuel, n ≤ fuel → Fails (e fuel) s fault s' := by
  rcases hSettles with ⟨n, ⟨result, s'⟩, hBound, hSame⟩
  refine ⟨n, ?_⟩
  cases result with
  | ok a => exact .inl ⟨a, s', (hEnds n).1 a s' (hSame n (Nat.le_refl n)), hSame⟩
  | error fault =>
    refine .inr ⟨fault, s', ?_, hSame⟩
    refine ((hEnds n).2 fault s' (hSame n (Nat.le_refl n))).resolve_right (fun hFault => ?_)
    exact hBound (congrArg Except.error hFault)

end Settles

---- Greedy Searches ----

variable {K : Type} [Scalar K]

namespace Conduct

variable {t : Task K} {c : Conduct t} {site : Site K}

/- Whether a measure of runs falls with every batch, and never rises in between. -/
structure Falls (c : Conduct t) (measure : Run K → Nat) : Prop where
  around : ∀ {r r' : Run K}, r.Around r' → r.level.Unchanged r'.level → measure r' ≤ measure r
  batch : ∀ {r r₁ r₂ r' : Run K} {carried : List (Match × Step)} {a : Graph K} {h : List Step},
    c.Good a h r.level → carried ≠ [] → r.Around r₁ → Search.GoesOn t r₁ r₂ →
    r₂.readings ≤ r'.readings → r'.iterations = r.iterations + 1 →
    c.Derives r.level carried r'.level → measure r' < measure r

/- Whether a measure of runs at a site falls with every round that counts as an iteration. -/
structure Sinks (c : Conduct t) (site : Site K) (measure : Run K → Nat) : Prop where
  around : ∀ {done : List Step} {r r' : Run K}, c.At site done r → c.At site done r' →
    r.Around r' → r.level.Unchanged r'.level → measure r' ≤ measure r
  batch : ∀ {done : List Step} {fresh : Bool} {ms : List Match} {next : Bool × List Match}
    {r r' : Run K}, c.At site done r → c.Round site done fresh ms r (.inr next) r' →
    r'.iterations = r.iterations + 1 → measure r' < measure r

theorem Falls.sinks {measure : Run K → Nat} (hFalls : c.Falls measure) (site : Site K) :
    c.Sinks site measure where
  around _ _ := hFalls.around
  batch hAt hRound hCounted := by
    cases hRound with
    | rescan _ _ hAr => exact absurd (hAr.iterations.symm.trans hCounted) (by omega)
    | drop _ hAr => exact absurd (hAr.iterations.symm.trans hCounted) (by omega)
    | batch hEffective hBef hGoes hReadings hIter _ _ hDer =>
      exact hFalls.batch hAt.level hEffective hBef hGoes hReadings hIter hDer

/-
  The greedy search comes to an end.  With every round the
  measure falls, or else the matches known have become all
  there are, or else there are fewer of them.
-/
theorem settles_greedyLoop (hAlw : ¬ c.Allowed .outOfFuel) {measure : Run K → Nat}
    (hSinks : c.Sinks site measure) {done : List Step} {r : Run K} (hAt : c.At site done r)
    {ms : List Match} (hKnown : ∀ m ∈ ms, c.Known m) (fresh : Bool) :
    Settles (fun fuel => Greedy.loop t site.path fuel fresh ms) r := by
  refine .of_succ ?_
  simp only [Greedy.loop_succ]
  refine .ends_bind (ends_round hAt hKnown fresh) (fun _ => hAlw) (fun next r' hRound => ?_)
  have hFalls := fun {next' : Bool × List Match} (hNext : next = .inr next') =>
    hSinks.batch hAt (hNext ▸ hRound)
  cases hRound with
  | stop => exact .of_pure _
  | rescan hStalled hHere hAr hU hFnd =>
    exact settles_greedyLoop hAlw hSinks hHere hFnd true
  | drop hHere hAr hU hFewer hL =>
    exact settles_greedyLoop hAlw hSinks hHere hL fresh
  | batch _ _ _ _ hIter hHere _ _ _ hFnd =>
    exact settles_greedyLoop hAlw hSinks hHere hFnd _
termination_by (measure r, (!fresh).toNat, ms.length)
decreasing_by
  · subst hStalled
    rcases Nat.lt_or_eq_of_le (hSinks.around hAt hHere hAr hU) with hLt | hEq
    · exact .left _ _ hLt
    · exact hEq ▸ .right _ (.left _ _ Nat.one_pos)
  · rcases Nat.lt_or_eq_of_le (hSinks.around hAt hHere hAr hU) with hLt | hEq
    · exact .left _ _ hLt
    · exact hEq ▸ .right _ (.right _ hFewer)
  · exact .left _ _ (hFalls rfl hIter)

theorem settles_greedy (hAlw : ¬ c.Allowed .outOfFuel) {measure : Run K → Nat}
    (hSinks : c.Sinks site measure) {done : List Step} {r : Run K} (hAt : c.At site done r) :
    Settles (fun fuel => Greedy.optimize t fuel site.path) r := by
  refine .ends_bind (ends_findInLevel hAt none) (fun _ => hAlw) ?_
  rintro found r₁ ⟨hAt₁, -, -, hFnd⟩
  exact settles_greedyLoop hAlw hSinks hAt₁ hFnd.1 true

end Conduct

---- Budgets ----

variable {K : Type}

/- Whether a measure of runs falls with every iteration that the settings allow. -/
structure Budget (t : Task K) (measure : Run K → Nat) : Prop where
  later : ∀ {r r' : Run K}, r.iterations ≤ r'.iterations → r.readings ≤ r'.readings →
    measure r' ≤ measure r
  spent : ∀ {r r₁ r' : Run K}, Search.GoesOn t r r₁ → r.iterations < r'.iterations →
    r₁.readings ≤ r'.readings → measure r' < measure r

def Settings.Limited (settings : Settings K) (clock : Nat → Float) : Prop :=
  (∃ limit, settings.maxIterations = some limit) ∨
    ∃ limit n, settings.timeout = some limit ∧ ∀ k, n ≤ k → limit ≤ clock k

theorem Settings.Limited.exists_budget {t : Task K} (hLimited : t.settings.Limited t.clock) :
    ∃ measure, Budget t measure := by
  rcases hLimited with ⟨limit, hLimit⟩ | ⟨limit, n, hLimit, hLate⟩
  · refine ⟨fun r => limit - r.iterations, ⟨?_, ?_⟩⟩
    · intro r r' hIter _
      exact Nat.sub_le_sub_left hIter limit
    · intro r r₁ r' hGoes hMore _
      have hLess := hGoes.iterations limit hLimit
      omega
  · refine ⟨fun r => n - r.readings, ⟨?_, ?_⟩⟩
    · intro r r' _ hReadings
      exact Nat.sub_le_sub_left hReadings n
    · intro r r₁ r' hGoes _ hReadings
      rcases hGoes.timeout limit hLimit with ⟨hRead, hEarly⟩
      have hLess : r.readings < n := Nat.lt_of_not_le (fun hLe => hEarly (hLate _ hLe))
      omega

variable [Scalar K] {t : Task K}

namespace Budget

variable {measure : Run K → Nat}

theorem falls (hBudget : Budget t measure) (c : Conduct t) : c.Falls measure where
  around hAr _ := hBudget.later (Nat.le_of_eq hAr.iterations.symm) hAr.readings
  batch _ _ hBef hGoes hReadings hIter _ := by
    refine Nat.lt_of_lt_of_le (hBudget.spent hGoes ?_ hReadings)
      (hBudget.later (Nat.le_of_eq hBef.iterations.symm) hBef.readings)
    rw [hBef.iterations, hIter]
    exact Nat.lt_succ_self _

end Budget

namespace Conduct

variable {c : Conduct t} {site : Site K}

theorem settles_bestFirstLoop (hAlw : ¬ c.Allowed .outOfFuel) {measure : Run K → Nat}
    (hBudget : Budget t measure) (hMode : t.settings.mode = .bounded) {r : Run K}
    (hAt : c.At site [] r) {f : Frontier K} (hHolds : c.Holds site f) :
    Settles (fun fuel => BestFirst.loop t site.path fuel f) r := by
  refine .of_succ ?_
  unfold BestFirst.loop
  split
  · exact .of_pure _
  · rename_i x queue hPop
    refine .ends_bind (E := fun _ _ => False) (Search.ends_exceeded) (fun _ hNever => hNever) ?_
    rintro stop r₁ ⟨hStill, hGoes, -⟩
    have hAt₁ := hAt.of_still hStill
    cases stop with
    | some status => exact .of_pure _
    | none =>
      refine .ends_bind (ends_expand hMode hAt₁ (hHolds.pop hPop)
        (hHolds.queue x (Heap.mem_of_pop? _ hPop).1)) (fun _ => hAlw) ?_
      rintro f' r₂ ⟨hAt₂, hExpands, hHolds', -⟩
      exact settles_bestFirstLoop hAlw hBudget hMode hAt₂ hHolds'
termination_by measure r
decreasing_by
  refine hBudget.spent (hGoes rfl) ?_ hExpands.readings
  rw [hExpands.iterations, hStill.iterations]
  exact Nat.lt_succ_self _

theorem settles_bestFirst (hAlw : ¬ c.Allowed .outOfFuel) {measure : Run K → Nat}
    (hBudget : Budget t measure) (hMode : t.settings.mode = .bounded) {r : Run K}
    (hAt : c.At site [] r) : Settles (fun fuel => BestFirst.optimize t fuel site.path) r := by
  refine .get_bind (.ends_bind (ends_score hAt hAt.level hAt.plain) (fun _ => hAlw) ?_)
  rintro cost _ ⟨rfl, -⟩
  refine .ends_bind (Search.ends_ofExcept (Q := fun _ r' => r = r') (fun _ _ => rfl)
    (E := fun fault _ => c.Allowed fault) (fun _ hFault => c.fingerprint hAt.level hFault))
    (fun _ => hAlw) ?_
  rintro print _ rfl
  refine (settles_bestFirstLoop hAlw hBudget hMode hAt (hAt.holds_start cost print)).bind ?_
  rintro _ ⟨status, f⟩ r₁ -
  refine .of_ends (Q := fun _ _ => True) (E := fun _ _ => False) ?_ (fun _ hNever => hNever)
  dsimp only
  split
  · exact .modify_bind (.get_bind (.modify_bind (.of_pure trivial)))
  · exact .get_bind (.modify_bind (.of_pure trivial))

end Conduct

---- Optimisations ----

/- Whether the searches of both modes come to an end. -/
structure Conduct.Finite (c : Conduct t) : Prop where
  allowed : ¬ c.Allowed .outOfFuel
  greedy : t.settings.mode = .greedy → ∀ site, ∃ measure, c.Sinks site measure
  bounded : t.settings.mode = .bounded → ∃ measure, Budget t measure

theorem Settings.Limited.finite (hLimited : t.settings.Limited t.clock) {c : Conduct t}
    (hAlw : ¬ c.Allowed .outOfFuel) : c.Finite := by
  rcases hLimited.exists_budget with ⟨measure, hBudget⟩
  exact ⟨hAlw, fun _ site => ⟨measure, (hBudget.falls c).sinks site⟩, fun _ => ⟨measure, hBudget⟩⟩

namespace Conduct

variable {c : Conduct t}

theorem settles_runLevel (hFinite : c.Finite) {site : Site K} {r : Run K} (hAt : c.At site [] r) :
    Settles (fun fuel => Search.runLevel t fuel site.path) r := by
  unfold Search.runLevel
  split
  · next hMode =>
    rcases hFinite.greedy hMode site with ⟨measure, hSinks⟩
    exact settles_greedy hFinite.allowed hSinks hAt
  · next hMode =>
    rcases hFinite.bounded hMode with ⟨measure, hBudget⟩
    exact (settles_bestFirst hFinite.allowed hBudget hMode hAt).bind (fun _ _ _ _ => .of_pure _)

theorem settles_runLevels (hFinite : c.Finite) {start : Graph K} {r : Run K}
    (hGood : c.Good start r.log r.root) {paths : List (List Nat)}
    (hLadder : r.root.Ladder paths) : Settles (fun fuel => Search.runLevels t fuel paths) r := by
  induction paths generalizing r with
  | nil => exact .of_pure _
  | cons path paths ih =>
    rcases hLadder.places path List.mem_cons_self with ⟨base, hPlace⟩
    have hEnter := at_enter hGood hPlace
    refine .modify_bind ((settles_runLevel hFinite hEnter).bind ?_)
    intro fuel stop r₁ hY
    rcases (ends_runLevel hEnter (by simp [Logged]) fuel).1 stop r₁ hY with
      ⟨done, hAt, hLogged⟩
    refine .modify_bind ?_
    cases stop with
    | some status => exact .get_bind (.modify_bind (.of_pure _))
    | none =>
      exact ih (hAt.good_leave hLogged) (hAt.ladder_leave hLadder)

end Conduct

omit [Scalar K] in
theorem Settles.ofExcept_bind {α β : Type} {x : Except Fault α} {f : Nat → α → Noting K β} {a : α}
    (hOk : x = .ok a) {events : List (Event K)} (hThen : Settles (fun fuel => f fuel a) events) :
    Settles (fun fuel => Noting.ofExcept x >>= f fuel) events := by
  subst hOk
  exact hThen

omit [Scalar K] in
theorem settles_runSearch {α : Type} {s : Nat → Search K α} {start : Run K}
    (hSea : Settles s start) (events : List (Event K)) :
    Settles (fun fuel => runSearch (s fuel) start) events := by
  rcases hSea with ⟨n, ⟨result, r⟩, hBound, hSame⟩
  have hRun : ∀ fuel, n ≤ fuel → outcome (runSearch (s fuel) start) events =
      outcome (Noting.ofExcept result >>= fun a => pure (a, r)) (events ++ r.events) := by
    intro fuel hLe
    have hThere : (ExceptT.run (s fuel)).run start = (result, r) := hSame fuel hLe
    unfold runSearch
    rw [hThere]
    rfl
  refine ⟨n, _, ?_, hRun⟩
  cases result with
  | ok a => exact fun hFault => nomatch hFault
  | error fault => exact fun hFault => hBound (congrArg Except.error (Except.error.inj hFault))

theorem settles_optimize {clock : Nat → Float} {rs : RuleSet K} {settings : Settings K}
    {g : Graph K} {cost : Cost K} (hCost : settings.cost.resolve = .ok cost) {gains : List K}
    (hGains : ruleGains cost rs = .ok gains) {initial : K}
    (hInitial : cost.eval g.copy = .ok initial)
    (hSea : Settles (Task.search ⟨rs, cost, gains, settings, clock⟩ · g) (Run.start g.copy))
    {Q : Graph K → Prop}
    (hAfter : ∀ fuel, Ends (Task.search ⟨rs, cost, gains, settings, clock⟩ fuel g) (Run.start g.copy)
      (fun _ r => Q r.root) (fun _ _ => True))
    (hFinal : ∀ result, Q result → ∃ final, cost.eval result = .ok final)
    (hVerify : ∀ result, Q result → ∃ answer, verifyResult settings.verify g result = .ok answer)
    (events : List (Event K)) : Settles (fun fuel => optimize fuel clock rs settings g) events := by
  refine .ofExcept_bind hCost (.ofExcept_bind hGains (.ofExcept_bind hInitial (.modify_bind ?_)))
  refine (settles_runSearch hSea _).bind ?_
  intro fuel out events' hY
  have hRoot := (ends_runSearch (hAfter fuel)).1 out events' hY
  rcases hFinal _ hRoot with ⟨final, hFinal⟩
  rcases hVerify _ hRoot with ⟨answer, hAnswer⟩
  exact .ofExcept_bind hFinal (.ofExcept_bind hAnswer (.modify_bind (.of_pure _)))

end CircuitGraph
