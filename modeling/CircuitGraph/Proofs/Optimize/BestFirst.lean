import CircuitGraph.Proofs.Optimize.Conduct
import CircuitGraph.Proofs.Sorting

/-
  What the best first search keeps.

  All graphs that wait, and the best of them, have come from
  the level by the steps of their histories.
-/

---- Best First Searches ----

namespace CircuitGraph

variable {K : Type} [Scalar K]

def Run.Cut (r : Run K) : Prop :=
  ∃ kept, Event.queueTruncated kept ∈ r.events

omit [Scalar K] in
theorem Run.Cut.mono {r r' : Run K} (hCut : r.Cut) (hEvents : r.events ⊆ r'.events) : r'.Cut :=
  hCut.imp (fun _ hM => hEvents hM)

/- Runs before and after a candidate is expanded. -/
structure Run.Expands (r r' : Run K) : Prop where
  root : r'.root = r.root
  log : r'.log = r.log
  iterations : r'.iterations = r.iterations + 1
  readings : r.readings ≤ r'.readings
  events : r.events ⊆ r'.events

/- What becomes of a frontier by following a match. -/
def Task.follow (t : Task K) (root : Graph K) (path : List Nat) (x : Candidate K) (f : Frontier K)
    (m : Match) : Frontier K :=
  match t.rules.attempt m x.graph with
  | none => f
  | some (step, g) =>
    match g.fingerprint, t.cost.eval (t.whole root path g) with
    | .ok print, .ok cost =>
      if f.seen.contains print then f
      else f.add print cost g (x.history ++ [step.located path])
    | _, _ => f

namespace Conduct

variable {t : Task K}

/- A good graph that a search holds, with the steps that lead to it; the start has none. -/
structure Comes (c : Conduct t) (site : Site K) (x : Candidate K) : Prop where
  good : ∃ h, c.Good site.base h x.graph ∧ (∀ s ∈ h, s.path = []) ∧
    x.history = h.map (Step.located site.path)
  start : x.number = 0 → x.history = []

/- Whether all graphs that a search holds are good. -/
structure Holds (c : Conduct t) (site : Site K) (f : Frontier K) : Prop where
  queue : ∀ x ∈ f.queue, c.Comes site x
  best : ∀ x, f.best = some x → c.Comes site x
  found : 0 < f.found

/- What expanding a candidate comes to, if the queue was never cut. -/
structure Expansion (c : Conduct t) (site : Site K) (x : Candidate K) (f : Frontier K) (r : Run K)
    (f' : Frontier K) (r' : Run K) : Prop where
  here : c.At site [] r'
  expands : r.Expands r'
  holds : c.Holds site f'
  uncut : r'.Cut ∨ ∃ found g, Yields (t.rules.findMatches none) x.graph found g ∧
    r'.level = (if x.number = 0 then g else r.level) ∧
    f' = found.foldl (t.follow r.root site.path { x with graph := g }) f

variable {c : Conduct t} {site : Site K} {r : Run K} {f : Frontier K} {x : Candidate K} {m : Match}

theorem Holds.add (hHolds : c.Holds site f) {g : Graph K} {h : List Step}
    (hGood : c.Good site.base h g) (hPlain : ∀ s ∈ h, s.path = []) (print : String) (cost : K) :
    c.Holds site (f.add print cost g (h.map (Step.located site.path))) := by
  have hNew : c.Comes site ⟨cost, f.found, g, h.map (Step.located site.path)⟩ :=
    ⟨⟨h, hGood, hPlain, rfl⟩, fun hZero => absurd hZero hHolds.found.ne'⟩
  refine ⟨fun x hM => ?_, fun x hBest => ?_, Nat.succ_pos _⟩
  · rcases (Heap.mem_push_iff _ _ _ _).mp hM with hOld | rfl
    · exact hHolds.queue x hOld
    · exact hNew
  · unfold Frontier.add at hBest
    dsimp only at hBest
    split at hBest
    · rw [← Option.some.inj hBest]
      exact hNew
    · exact hHolds.best x hBest

theorem Holds.follow (hHolds : c.Holds site f) (hComes : c.Comes site x) (hKnown : c.Known m)
    (root : Graph K) : c.Holds site (t.follow root site.path x f m) := by
  rcases hComes.good with ⟨h, hGood, hPlain, hHistory⟩
  unfold Task.follow
  split
  · exact hHolds
  · rename_i step g hAttempt
    have hY := RuleSet.attempt_eq_some_iff.mp hAttempt
    have hNext := (ends_apply (c.copy hGood) hKnown).1 step g hY
    split
    · rename_i print cost _ _
      split
      · exact hHolds
      · have hAdded := hHolds.add hNext (plain_append hPlain (RuleSet.path_of_apply hY)) print cost
        rwa [List.map_append, ← hHistory] at hAdded
    · exact hHolds

theorem ends_follow (hAt : c.At site [] r) (hComes : c.Comes site x) (hKnown : c.Known m) :
    Ends (BestFirst.follow t site.path x f m) r
      (fun f' r' => r.Still r' ∧ f' = t.follow r.root site.path x f m)
      (fun fault _ => c.Allowed fault) := by
  rcases hComes.good with ⟨h, hGood, hPlain, hHistory⟩
  refine (ends_applyTo hGood hKnown).bind ?_
  rintro applied r₁ ⟨hStill, hAttempt, hDone⟩
  rw [Task.follow, ← hAttempt]
  cases applied with
  | none => exact .of_pure ⟨hStill, rfl⟩
  | some entry =>
    rcases entry with ⟨step, g⟩
    rcases hDone step g rfl with ⟨hNext, hPath⟩
    refine (Search.ends_ofExcept (Q := fun print r' => r₁ = r' ∧ g.fingerprint = .ok print)
      (fun _ hPrint => ⟨rfl, hPrint⟩) (fun _ hFault => c.fingerprint hNext hFault)).bind ?_
    rintro print _ ⟨rfl, hPrint⟩
    simp only [hPrint]
    refine .of_ite (fun hSeen => .of_pure ⟨hStill, ?_⟩) (fun hNew => ?_)
    · cases t.cost.eval (t.whole r.root site.path g) with
      | ok cost => exact (if_pos hSeen).symm
      | error fault => rfl
    · refine (ends_score (hAt.of_still hStill) hNext (plain_append hPlain hPath)).bind ?_
      rintro cost _ ⟨rfl, hCost⟩
      rw [hStill.root] at hCost
      simp only [hCost]
      exact .of_pure ⟨hStill, (if_neg hNew).symm⟩

theorem ends_followAll (hAt : c.At site [] r) (hComes : c.Comes site x) (hHolds : c.Holds site f)
    {found : List Match} (hKnown : ∀ m ∈ found, c.Known m) :
    Ends (found.foldlM (BestFirst.follow t site.path x) f) r
      (fun f' r' => r.Still r' ∧ c.Holds site f' ∧ f' = found.foldl (t.follow r.root site.path x) f)
      (fun fault _ => c.Allowed fault) := by
  induction found generalizing f r with
  | nil => exact .of_pure ⟨.refl r, hHolds, rfl⟩
  | cons m found ih =>
    rw [List.foldlM_cons]
    have hFirst := hKnown m List.mem_cons_self
    refine (ends_follow hAt hComes hFirst).bind ?_
    rintro _ r₁ ⟨hStill, rfl⟩
    refine (ih (hAt.of_still hStill) (hHolds.follow hComes hFirst r.root)
      (fun n hM => hKnown n (List.mem_cons_of_mem _ hM))).mono ?_ (fun _ _ hAlw => hAlw)
    rintro f' r₂ ⟨hStill', hHolds', hAll⟩
    rw [hStill.root] at hAll
    exact ⟨hStill.trans hStill', hHolds', hAll⟩

theorem ends_truncate (hMode : t.settings.mode = .bounded) (hHolds : c.Holds site f) :
    Ends (BestFirst.truncate t f) r (fun f' r' => r.Still r' ∧ c.Holds site f' ∧ (r'.Cut ∨ f' = f))
      (fun fault _ => c.Allowed fault) := by
  refine .of_ite (fun _ => .of_pure ⟨.refl r, hHolds, .inr rfl⟩) (fun _ => ?_)
  split
  · rename_i hNone
    exact .of_throw (c.queue hMode hNone)
  · refine (Search.ends_note _).with_yields.bind (fun _ r' hNoted => .of_pure
      ⟨hNoted.1, ⟨?_, hHolds.best, hHolds.found⟩, .inl ?_⟩)
    · intro x hM
      rw [(Heap.ofArray_perm _ _).mem_iff, List.mem_toArray] at hM
      exact hHolds.queue x (Array.mem_toList_iff.mp (Heap.mem_of_smallest _ hM))
    · cases hNoted.2
      exact ⟨_, List.mem_append_right _ List.mem_cons_self⟩

theorem ends_expand (hMode : t.settings.mode = .bounded) (hAt : c.At site [] r)
    (hHolds : c.Holds site f) (hComes : c.Comes site x) :
    Ends (BestFirst.expand t site.path x f) r (c.Expansion site x f r)
      (fun fault _ => c.Allowed fault) := by
  rcases hComes.good with ⟨h, hGood, hPlain, hHistory⟩
  refine .modify_bind ((ends_findMatches hGood none).bind ?_)
  rintro ⟨found, g⟩ r₁ ⟨hStill, hAfter, -, hFnd, hY⟩
  have hThen : ∀ r₂ : Run K, c.At site [] r₂ → r.Expands r₂ →
      r₂.level = (if x.number = 0 then g else r.level) →
      Ends (do
        let f ← found.foldlM (BestFirst.follow t site.path { x with graph := g }) f
        let f ← BestFirst.truncate t f
        Search.measure t g x.history.length
        return f) r₂ (c.Expansion site x f r) (fun fault _ => c.Allowed fault) := by
    intro r₂ hAt₂ hExpands hLevel
    have hComes' : c.Comes site { x with graph := g } :=
      ⟨⟨h, hAfter, hPlain, hHistory⟩, hComes.start⟩
    refine (ends_followAll hAt₂ hComes' hHolds hFnd).bind ?_
    rintro _ r₃ ⟨hStill₃, hHolds', rfl⟩
    refine (ends_truncate hMode hHolds').bind ?_
    rintro f' r₄ ⟨hStill₄, hHolds'', hCut⟩
    refine (ends_measure hAfter _).bind ?_
    rintro ⟨⟩ r₅ ⟨hStill₅, -⟩
    have hStill := hStill₃.trans hStill₄
    refine .of_pure ⟨((hAt₂.of_still hStill).of_metrics r₅.metrics).of_still hStill₅, ?_, hHolds'',
      hCut.imp (fun hCut => hCut.mono hStill₅.events) (fun hSame => ⟨found, g, hY, ?_, ?_⟩)⟩
    · exact ⟨(hStill₅.root.trans hStill.root).trans hExpands.root,
        (hStill₅.log.trans hStill.log).trans hExpands.log,
        (hStill₅.iterations.trans hStill.iterations).trans hExpands.iterations,
        hExpands.readings.trans (hStill.readings.trans hStill₅.readings),
        List.Subset.trans hExpands.events (List.Subset.trans hStill.events hStill₅.events)⟩
    · exact (hStill₅.level.trans hStill.level).trans hLevel
    · rw [hSame, hExpands.root]
  have hExpands : r.Expands r₁ :=
    ⟨hStill.root, hStill.log, hStill.iterations, hStill.readings, hStill.events⟩
  refine .of_ite (fun hZero => .modify_bind (hThen _ ?_ { hExpands with } (if_pos hZero).symm))
    (fun hLater => hThen _ ?_ hExpands (hStill.level.trans (if_neg hLater).symm))
  · obtain rfl : h = [] := List.map_eq_nil_iff.mp (hHistory.symm.trans (hComes.start hZero))
    exact hAt.of_root hStill.root hAfter
  · exact hAt.of_root hStill.root (hStill.level ▸ hAt.level)

theorem Holds.pop (hHolds : c.Holds site f) {queue : Array (Candidate K)}
    (hPop : Heap.pop? Candidate.before f.queue = some (x, queue)) :
    c.Holds site { f with queue := queue } :=
  ⟨fun y hM => hHolds.queue y ((Heap.mem_of_pop? _ hPop).2 y hM), hHolds.best, hHolds.found⟩

theorem At.holds_start (hAt : c.At site [] r) (cost : K) (print : String) :
    c.Holds site (.start r.level cost print) := by
  refine ⟨fun x hM => ?_, by simp [Frontier.start], Nat.one_pos⟩
  obtain rfl := Array.mem_singleton.mp hM
  exact ⟨⟨[], hAt.level, hAt.plain, rfl⟩, fun _ => rfl⟩

section

variable {P : Frontier K → Run K → Prop} (hStep : ∀ {f f' : Frontier K} {r r₁ r' : Run K}
  {x : Candidate K} {queue : Array (Candidate K)}, P f r →
  Heap.pop? Candidate.before f.queue = some (x, queue) → r.Still r₁ →
  c.Expansion site x { f with queue := queue } r₁ f' r' → P f' r')
  (hMode : t.settings.mode = .bounded) (hAt : c.At site [] r)

include hStep hMode hAt

/- What holds at the start and is kept by expansions holds of the last frontier. -/
theorem ends_bestFirstLoop_of (hInv : P f r) (hHolds : c.Holds site f) (fuel : Nat) :
    Ends (BestFirst.loop t site.path fuel f) r
      (fun out r' => c.At site [] r' ∧ r'.log = r.log ∧ c.Holds site out.2 ∧
        (∃ r₁, P out.2 r₁ ∧ r₁.Still r') ∧ (out.1 = .exhausted → out.2.queue = #[]))
      (fun fault _ => c.Stops fault) := by
  induction fuel generalizing r f with
  | zero => exact .of_throw (.inr rfl)
  | succ fuel ih =>
    unfold BestFirst.loop
    split
    · rename_i hNone
      exact .of_pure ⟨hAt, rfl, hHolds, ⟨r, hInv, .refl r⟩, fun _ => Heap.pop?_eq_none _ hNone⟩
    · rename_i x queue hPop
      refine Search.ends_exceeded.bind ?_
      rintro stop r₁ ⟨hStill, -, hLimit⟩
      have hAt₁ := hAt.of_still hStill
      cases stop with
      | some status =>
        refine .of_pure ⟨hAt₁, hStill.log, hHolds, ⟨r, hInv, hStill⟩, ?_⟩
        rintro rfl
        simp at hLimit
      | none =>
        refine ((ends_expand hMode hAt₁ (hHolds.pop hPop) (hHolds.queue x
          (Heap.mem_of_pop? _ hPop).1)).mono (fun _ _ h => h) (fun _ _ => .inl)).bind ?_
        intro f' r₂ hExpansion
        refine (ih hExpansion.here (hStep hInv hPop hStill hExpansion) hExpansion.holds).mono ?_
          (fun _ _ hStops => hStops)
        rintro out r₃ ⟨hAt₃, hLog, hRest⟩
        exact ⟨hAt₃, hLog.trans (hExpansion.expands.log.trans hStill.log), hRest⟩

theorem ends_bestFirst_of (hInv : ∀ cost print,
      t.cost.eval (t.whole r.root site.path r.level) = .ok cost →
      r.level.fingerprint = .ok print → P (.start r.level cost print) r)
    (hLogged : Logged site [] r) (fuel : Nat) : Ends (BestFirst.optimize t fuel site.path) r
      (fun status r' => (∃ done', c.At site done' r' ∧ Logged site done' r') ∧
        ∃ f r₁, P f r₁ ∧ (status = .exhausted → f.queue = #[]) ∧ r₁.events ⊆ r'.events ∧
          r'.level = f.best.elim r₁.level (fun x => r₁.level.takeOver x.graph))
      (fun fault _ => c.Stops fault) := by
  refine .get_bind (((ends_score hAt hAt.level hAt.plain).mono (fun _ _ h => h)
    (fun _ _ => .inl)).bind ?_)
  rintro cost _ ⟨rfl, hCost⟩
  refine (Search.ends_ofExcept (Q := fun print r' => r = r' ∧ r.level.fingerprint = .ok print)
    (fun _ hPrint => ⟨rfl, hPrint⟩) (fun _ hFault => .inl (c.fingerprint hAt.level hFault))).bind ?_
  rintro print _ ⟨rfl, hPrint⟩
  refine (ends_bestFirstLoop_of hStep hMode hAt (hInv cost print hCost hPrint)
    (hAt.holds_start cost print) fuel).bind ?_
  rintro ⟨status, f⟩ r₁ ⟨hAt₁, hLog, hHolds, ⟨r₀, hLast, hStill⟩, hEmpty⟩
  have hLogged₁ : Logged site [] r₁ := hLog.trans hLogged
  dsimp only at hHolds hLast hEmpty ⊢
  split
  · rename_i x hBest
    rcases (hHolds.best x hBest).good with ⟨h, hGood, hPlain, hHistory⟩
    have hLevel := c.takeOver hAt₁.level hGood
    refine .modify_bind (.get_bind (.modify_bind (.of_pure
      ⟨⟨h, ⟨hAt₁.root, hAt₁.around, hAt₁.place, hLevel, hPlain⟩, ?_⟩, f, r₀, hLast, hEmpty,
        List.Subset.trans hStill.events (List.subset_append_left _ _), ?_⟩)))
    · rw [Logged, ← hHistory]
      exact congrArg (· ++ x.history) (hLogged₁.trans (List.append_nil _))
    · rw [hBest, ← hStill.level]
      rfl
  · rename_i hBest
    refine .get_bind (.modify_bind (.of_pure
      ⟨⟨[], ⟨hAt₁.root, hAt₁.around, hAt₁.place, hAt₁.level, hAt₁.plain⟩, hLogged₁⟩, f, r₀, hLast,
        hEmpty, List.Subset.trans hStill.events (List.subset_append_left _ _), ?_⟩))
    rw [hBest, ← hStill.level]
    rfl

end

end Conduct

end CircuitGraph
