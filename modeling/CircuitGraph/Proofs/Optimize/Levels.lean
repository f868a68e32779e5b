import CircuitGraph.Proofs.Optimize.BestFirst
import CircuitGraph.Proofs.Optimize.Greedy

/-
  What optimisations keep.

  The levels are visited one after another, the deepest first,
  so that a level is where it was when its turn comes.
-/

---- Levels ----

namespace CircuitGraph

open List

variable {K : Type} [Scalar K]

namespace Search

theorem runLevel_greedy {t : Task K} (hMode : t.settings.mode = .greedy) (fuel : Nat)
    (path : List Nat) : runLevel t fuel path = Greedy.optimize t fuel path := by
  rw [runLevel, hMode]

end Search

namespace Conduct

variable {t : Task K} {c : Conduct t} {start : Graph K} {r : Run K}

theorem ends_runLevel {site : Site K} (hAt : c.At site [] r) (hLogged : Logged site [] r)
    (fuel : Nat) : Ends (Search.runLevel t fuel site.path) r
      (fun _ r' => ∃ done', c.At site done' r' ∧ Logged site done' r')
      (fun fault _ => c.Stops fault) := by
  unfold Search.runLevel
  split
  · exact ends_greedy hAt hLogged fuel
  · next hMode =>
    exact (ends_bestFirst_of (P := fun _ _ => True) (fun _ _ _ _ => trivial) hMode hAt
      (fun _ _ _ _ => trivial) hLogged fuel).bind (fun _ _ hAfter => .of_pure hAfter.1)

theorem at_enter (hGood : c.Good start r.log r.root) {path : List Nat} {base : Graph K}
    (hPlace : r.root.bodyAt? path = some base) : c.At ⟨start, r.log, r.root, path, base⟩ []
      { r with level := (r.root.bodyAt? path).getD r.root } := by
  rw [hPlace]
  exact ⟨rfl, hGood, hPlace, c.body hGood hPlace, by simp⟩

theorem At.good_leave {site : Site K} {done : List Step} (hAt : c.At site done r)
    (hLogged : Logged site done r) :
    c.Good site.start r.log (r.root.replaceAt site.path r.level) := by
  rw [hLogged]
  exact hAt.whole

theorem At.ladder_leave {site : Site K} {done : List Step} (hAt : c.At site done r)
    {paths : List (List Nat)} (hLadder : site.root.Ladder (site.path :: paths)) :
    (r.root.replaceAt site.path r.level).Ladder paths := by
  rcases pairwise_cons.mp hLadder.lengths with ⟨hLengths, hRest⟩
  refine ⟨fun other hM => ?_, hRest⟩
  rcases hLadder.places other (mem_cons_of_mem _ hM) with ⟨around, hAr⟩
  rw [hAt.root]
  exact Graph.exists_bodyAt?_replaceAt hAt.place hAr (hLengths other hM) r.level

theorem ends_runLevels (hGood : c.Good start r.log r.root) (fuel : Nat) {paths : List (List Nat)}
    (hLadder : r.root.Ladder paths) :
    Ends (Search.runLevels t fuel paths) r (fun _ r' => c.Good start r'.log r'.root)
      (fun fault _ => c.Stops fault) := by
  induction paths generalizing r with
  | nil => exact .of_pure hGood
  | cons path paths ih =>
    rcases hLadder.places path mem_cons_self with ⟨base, hPlace⟩
    have hEnter := at_enter hGood hPlace
    refine .modify_bind ((ends_runLevel hEnter (by simp [Logged]) fuel).bind ?_)
    rintro stop r₁ ⟨done, hAt, hLogged⟩
    refine .modify_bind ?_
    cases stop with
    | some status => exact .get_bind (.modify_bind (.of_pure (hAt.good_leave hLogged)))
    | none =>
      exact ih (hAt.good_leave hLogged) (hAt.ladder_leave hLadder)

/-
  What is known of the whole graph, the log, the iterations and
  the measures between two levels is known at the end, if the
  search of each level keeps it.
-/
theorem ends_runLevels_of {P : Run K → Prop}
    (hStill : ∀ {r r' : Run K}, P r → r'.root = r.root → r'.log = r.log →
      r'.iterations = r.iterations → r'.metrics = r.metrics → P r')
    {fuel : Nat}
    (hLevel : ∀ {site : Site K} {r : Run K}, c.At site [] r → r.level = site.base → P r →
      Ends (Search.runLevel t fuel site.path) r
        (fun _ r' => P { r' with root := r'.root.replaceAt site.path r'.level })
        (fun _ _ => True))
    (hGood : c.Good start r.log r.root)
    (hInv : P r)
    {paths : List (List Nat)}
    (hLadder : r.root.Ladder paths) :
    Ends (Search.runLevels t fuel paths) r (fun _ => P) (fun _ _ => True) := by
  induction paths generalizing r with
  | nil => exact .of_pure hInv
  | cons path paths ih =>
    rcases hLadder.places path mem_cons_self with ⟨base, hPlace⟩
    have hEnter := at_enter hGood hPlace
    have hLogged : Logged ⟨start, r.log, r.root, path, base⟩ []
        { r with level := (r.root.bodyAt? path).getD r.root } := by simp [Logged]
    have hBase : (r.root.bodyAt? path).getD r.root = base := by rw [hPlace, Option.getD_some]
    refine .modify_bind (((ends_runLevel hEnter hLogged fuel).loosen.and
      (hLevel hEnter hBase (hStill hInv rfl rfl rfl rfl))).bind ?_)
    rintro stop r₁ ⟨⟨done, hAt, hLogged₁⟩, hAfter⟩
    refine .modify_bind ?_
    cases stop with
    | some status => exact .get_bind (.modify_bind (.of_pure (hStill hAfter rfl rfl rfl rfl)))
    | none =>
      exact ih (hAt.good_leave hLogged₁) hAfter (hAt.ladder_leave hLadder)

end Conduct

---- Whole Optimisations ----

/- The search of an optimisation: over the levels of a copy of the graph. -/
abbrev Task.search {K : Type} [Scalar K] (t : Task K) (fuel : Nat) (g : Graph K) :
    Search K (Option Status) :=
  Search.runLevels t fuel (Search.levelPaths t.settings.recurse g.copy)

variable {K : Type}

theorem Noting.ends_ofExcept {α : Type} {x : Except Fault α} {events : List (Event K)}
    {Q : α → List (Event K) → Prop} {E : Fault → List (Event K) → Prop}
    (hOk : ∀ a, x = .ok a → Q a events) (hFault : ∀ fault, x = .error fault → E fault events) :
    Ends (Noting.ofExcept x) events Q E := by
  cases x with
  | ok a => exact .of_pure (hOk a rfl)
  | error fault => exact .of_throw (hFault fault rfl)

section

variable {α : Type} {s : Search K α} {start : Run K} {Q : α → Run K → Prop} {E : Fault → Prop}
  (hSea : Ends s start Q (fun fault _ => E fault))

include hSea

theorem ends_runSearch_noted {events : List (Event K)} : Ends (runSearch s start) events
      (fun out events' => Q out.1 out.2 ∧ events' = events ++ out.2.events)
      (fun fault _ => E fault) := by
  unfold runSearch
  rcases hRun : outcome s start with ⟨result, run⟩
  have hPair : (ExceptT.run s).run start = (result, run) := hRun
  simp only [hPair]
  refine .modify_bind ?_
  cases result with
  | ok a => exact .of_pure ⟨hSea.1 a run hRun, rfl⟩
  | error fault => exact .throw_bind (hSea.2 fault run hRun)

theorem ends_runSearch {events : List (Event K)} :
    Ends (runSearch s start) events (fun out _ => Q out.1 out.2) (fun fault _ => E fault) :=
  (ends_runSearch_noted hSea).mono (fun _ _ hOut => hOut.1) (fun _ _ hFault => hFault)

end

variable [Scalar K]

theorem ends_optimize {fuel : Nat} {clock : Nat → Float} {rs : RuleSet K} {settings : Settings K}
    {g : Graph K} {events : List (Event K)} {Q : List Step → Graph K → Prop} {E : Fault → Prop}
    (hResolve : ∀ fault, settings.cost.resolve = .error fault → E fault)
    (hGains : ∀ cost fault, settings.cost.resolve = .ok cost → ruleGains cost rs = .error fault →
      E fault)
    (hStart : ∀ cost fault, settings.cost.resolve = .ok cost → cost.eval g.copy = .error fault →
      E fault)
    (hSea : ∀ cost gains, settings.cost.resolve = .ok cost → ruleGains cost rs = .ok gains →
      Ends (Task.search ⟨rs, cost, gains, settings, clock⟩ fuel g) (Run.start g.copy)
        (fun _ r => Q r.log r.root) (fun fault _ => E fault))
    (hFinal : ∀ cost log result fault, settings.cost.resolve = .ok cost → Q log result →
      cost.eval result = .error fault → E fault)
    (hVerify : ∀ log result fault, Q log result →
      verifyResult settings.verify g result = .error fault → E fault) :
    Ends (optimize fuel clock rs settings g) events (fun o _ => Q o.log o.graph)
      (fun fault _ => E fault) := by
  unfold optimize
  refine (Noting.ends_ofExcept (Q := fun cost _ => settings.cost.resolve = .ok cost)
    (fun _ hOk => hOk) hResolve).bind (fun cost _ hCost => ?_)
  refine (Noting.ends_ofExcept (Q := fun gains _ => ruleGains cost rs = .ok gains)
    (fun _ hOk => hOk) (hGains cost · hCost)).bind (fun gains _ hGain => ?_)
  refine (Noting.ends_ofExcept (Q := fun _ _ => True) (fun _ _ => trivial)
    (hStart cost · hCost)).bind (fun initial _ _ => .modify_bind ?_)
  refine (ends_runSearch (hSea cost gains hCost hGain)).bind (fun out _ hRoot => ?_)
  refine (Noting.ends_ofExcept (Q := fun _ _ => True) (fun _ _ => trivial)
    (hFinal cost _ _ · hCost hRoot)).bind (fun final _ _ => ?_)
  refine (Noting.ends_ofExcept (Q := fun _ _ => True) (fun _ _ => trivial)
    (hVerify _ _ · hRoot)).bind (fun verdict _ _ => .modify_bind (.of_pure hRoot))

/- What an optimisation returns comes from a run over the levels. -/
structure Outcome.Reports (o : Outcome K) (t : Task K) (g : Graph K) (stop : Option Status)
    (r : Run K) : Prop where
  graph : o.graph = r.root
  log : o.log = r.log
  status : o.status = stop.getD t.settings.mode.finalStatus
  iterations : o.iterations = r.iterations
  initial : t.cost.eval g.copy = .ok o.initialCost
  final : t.cost.eval r.root = .ok o.finalCost
  rows : o.report.rows = r.metrics.map Metrics.row

theorem ends_optimize_reports {fuel : Nat} {clock : Nat → Float} {rs : RuleSet K}
    {settings : Settings K} {g : Graph K} {events : List (Event K)} :
    Ends (optimize fuel clock rs settings g) events
      (fun o events' => ∃ cost gains stop r, settings.cost.resolve = .ok cost ∧
        ruleGains cost rs = .ok gains ∧
        Yields (Task.search ⟨rs, cost, gains, settings, clock⟩ fuel g) (Run.start g.copy) stop r ∧
        o.Reports ⟨rs, cost, gains, settings, clock⟩ g stop r ∧ r.events ⊆ events')
      (fun _ _ => True) := by
  have hAny : ∀ {α : Type} (x : Except Fault α) (events : List (Event K)),
      Ends (Noting.ofExcept x) events (fun a events' => x = .ok a ∧ events' = events)
        (fun _ _ => True) := fun x events =>
    Noting.ends_ofExcept (fun _ hOk => ⟨hOk, rfl⟩) (fun _ _ => trivial)
  refine (hAny settings.cost.resolve events).bind (fun cost _ hCost => ?_)
  refine (hAny (ruleGains cost rs) _).bind (fun gains _ hGains => ?_)
  refine (hAny (cost.eval g.copy) _).bind (fun initial _ hInitial => .modify_bind ?_)
  refine (ends_runSearch_noted (E := fun _ => True)
    ⟨fun _ _ hY => hY, fun _ _ _ => trivial⟩).bind ?_
  rintro out events₁ ⟨hRun, hNoted⟩
  refine (hAny (cost.eval out.2.root) _).bind (fun final events₂ hFinal => ?_)
  refine (hAny (verifyResult settings.verify g out.2.root) _).bind
    (fun verdict events₃ hVerdict => .modify_bind (.of_pure ?_))
  refine ⟨cost, gains, out.1, out.2, hCost.1, hGains.1, hRun,
    ⟨rfl, rfl, rfl, rfl, hInitial.1, hFinal.1, rfl⟩, ?_⟩
  rw [hVerdict.2, hFinal.2, hNoted]
  exact fun e hM => mem_append_left _ (mem_append_right _ hM)

end CircuitGraph
