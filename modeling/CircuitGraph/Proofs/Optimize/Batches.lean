import CircuitGraph.Proofs.Optimize.Rematch
import CircuitGraph.Proofs.Optimize.Safety
import CircuitGraph.Proofs.Substitution.Sequence

/-
  Batches of matches that are all there.

  The first match of a batch that was found in the graph is
  never stale.
-/

---- Regular Tasks ----

namespace CircuitGraph

open List

variable {K : Type} [Scalar K]

/- Tasks with compiled rules and a cost of the library. -/
structure Task.Regular (t : Task K) : Prop where
  spares : t.rules.Spares t.rules.Room
  compiled : t.rules.Compiled
  rules : ∀ rule ∈ t.rules.rules, rule.Reachable
  cost : t.cost.Standard

variable [Scalar.Ordered K] {t : Task K}

def Conduct.tracing (hReg : t.Regular) :
    (Conduct.steady t hReg.spares hReg.compiled hReg.rules
      hReg.cost).Refinement where
  Extra _ _ _ := True
  Sure p b := p.Drawn b ∧ ∃ rule f, t.rules.Finds b p.found rule f
  body _ _ := trivial
  replace _ _ _ _ _ _ := trivial
  copy _ _ := trivial
  takeOver _ _ _ _ := trivial
  unchanged _ _ _ := trivial
  plan hWk hKnown hPlan := by
    rcases hKnown with ⟨rule, f, hNames⟩
    exact hReg.compiled.sure_of_plan hWk.1.searchable hNames hPlan
  fit hSure hU := by
    rcases hSure with ⟨hDrawn, rule, f, hFinds⟩
    exact ⟨hDrawn.of_resembles hU.1.resembles, rule, f, hFinds.of_alike hU.1⟩
  carryOut _ _ _ _ _ := trivial

namespace Task.Regular

def conduct (hReg : t.Regular) : Conduct t :=
  (Conduct.tracing hReg).conduct

omit [Scalar.Ordered K] in
theorem of_settings (hReg : t.Regular) (settings : Settings K) :
    ({ t with settings := settings } : Task K).Regular :=
  ⟨hReg.spares, hReg.compiled, hReg.rules, hReg.cost⟩

variable (hReg : t.Regular) {site : Site K} {done : List Step} {r : Run K}

theorem workable {a b : Graph K} {h : List Step} (hGood : hReg.conduct.Good a h b) :
    a.Workable t.rules.Room b :=
  hGood.1.1

theorem good_self {g : Graph K} {h : List Step} (hWk : g.Workable t.rules.Room g) :
    hReg.conduct.Good g h g :=
  ⟨⟨hWk, Nat.le_refl _, fun _ => rfl⟩, trivial⟩

theorem good_copy {g : Graph K} (hWk : g.Workable t.rules.Room g) :
    hReg.conduct.Good g [] g.copy :=
  ⟨hWk.good_copy, trivial⟩

theorem searchable (hAt : hReg.conduct.At site done r) : r.level.Searchable :=
  (hReg.workable hAt.level).searchable

theorem performs {b b' : Graph K} {carried : List (Match × Step)}
    (hDer : hReg.conduct.Derives b carried b') : t.rules.Performs b carried b' := by
  induction hDer with
  | done hU => exact .done hU
  | step hU _ hFit hY _ ih =>
    exact .step hU ⟨hFit.2.2, hFit.1, hFit.2.1, hY⟩ ih

theorem known_of_finds {b : Graph K} {m : Match} (hFinds : ∃ rule f, t.rules.Finds b m rule f) :
    hReg.conduct.Known m := by
  rcases hFinds with ⟨rule, f, hFinds⟩
  exact ⟨rule, f, hFinds.toNames⟩

theorem not_outdated {b : Graph K} {m : Match} {rule : Rule K} {f : Nat → Nat}
    (hFinds : t.rules.Finds b m rule f) : ¬ hReg.conduct.Outdated m b := by
  rintro ⟨⟨a, h, hGood⟩, fault, b', -, hFails⟩
  have hSea := (hReg.workable hGood).searchable
  rcases hReg.compiled.plan_cases hSea hFinds.toNames with
    ⟨_, -, -, ⟨-, p, hPlan, -⟩ | ⟨hNever, -⟩⟩
  · exact hPlan.not_fails hFails
  · exact hNever hFinds

end Task.Regular

---- Finding All Matches ----

variable {K : Type} [Scalar K] {t : Task K} {r r' : Run K}

namespace Task.Regular

variable [Scalar.Ordered K] (hReg : t.Regular) {site : Site K} {done : List Step}

theorem lists_of_findMatches (hAt : hReg.conduct.At site done r) {found : List Match}
    {g : Graph K} (hY : Yields (t.rules.findMatches none) r.level found g) :
    t.rules.Lists g found := by
  have hSea := hReg.searchable hAt
  rcases hReg.compiled.yields_findMatches hSea none with ⟨g', hFnd, -, -⟩
  obtain ⟨rfl, -⟩ := hY.unique hFnd
  have hU := (Reads.findMatches t.rules none).unchanged hY
  exact (hReg.compiled.lists hSea.sound).of_resembles hU.1.resembles

theorem ends_findInLevel (hAt : hReg.conduct.At site done r) : Ends (Search.findInLevel t none) r
      (fun found r' => hReg.conduct.At site done r' ∧ r.Around r' ∧
        r.level.Unchanged r'.level ∧ t.rules.Lists r'.level found)
      (fun fault _ => hReg.conduct.Allowed fault) :=
  (Conduct.ends_findInLevel hAt none).mono (fun _ _ hFind => ⟨hFind.1, hFind.2.1, hFind.2.2.1,
      hReg.lists_of_findMatches hAt hFind.2.2.2.2⟩) (fun _ _ hAlw => hAlw)

---- Applying Batches ----

variable {batch : List Match}

section

variable (hFunnels : ∀ rule ∈ t.rules.rules, rule.pattern.Funnel)
  (hAt : hReg.conduct.At site done r)

include hFunnels hAt

theorem ends_applyBatch_funnels (hFnd : ∀ m ∈ batch, ∃ rule f, t.rules.Finds r.level m rule f)
    (hApart : batch.Pairwise Match.Apart) : Ends (Greedy.applyBatch t batch) r
      (fun out r' => hReg.conduct.At site (done ++ out.1) r' ∧ r.Around r' ∧ out.2 = [] ∧
        ∃ carried, t.rules.Performs r.level carried r'.level ∧ carried.map Prod.fst = batch ∧
          carried.map Prod.snd = out.1)
      (fun fault _ => hReg.conduct.Allowed fault) := by
  have hSea := hReg.searchable hAt
  refine (Conduct.ends_applyBatch hAt (fun m hM => hReg.known_of_finds (hFnd m hM))).mono
    ?_ (fun _ _ hAlw => hAlw)
  rintro ⟨steps, stale⟩ r' ⟨hAt', hAr, carried, hDer, rfl, hPerm, hSub, hStale⟩
  have hNone : stale = [] := by
    apply eq_nil_iff_forall_not_mem.mpr
    intro m hM
    have hBatch := hPerm.mem_iff.mp (mem_append_right _ hM)
    rcases hFnd m hBatch with ⟨rule, f, hFinds⟩
    rcases hStale m hM with hNever | ⟨before, b, hPre, hBef, hOutdated⟩
    · exact hNever
    · -- what was replaced before has no operation in common with the match
      have hApart' : (carried.map Prod.fst ++ stale).Pairwise Match.Apart :=
        (hPerm.pairwise_iff (fun hL n hN hN' => hL n hN' hN)).mpr hApart
      have hDisjoint : ∀ entry ∈ before, ∀ n ∈ m.ids, n ∉ entry.1.ids := by
        intro entry hEntry n hN hN'
        have hFirst := mem_map_of_mem (f := Prod.fst) (hPre.subset hEntry)
        exact (pairwise_append.mp hApart').2.2 entry.1 hFirst m hM n hN' hN
      exact hReg.not_outdated ((hReg.performs hBef).finds hReg.compiled hFunnels
        hSea.sound hSea.acyclic hFinds hDisjoint) hOutdated
  subst hNone
  rw [append_nil] at hPerm
  exact ⟨hAt', hAr, rfl, carried, hReg.performs hDer, hSub.eq_of_length hPerm.length_eq, rfl⟩

theorem ends_rematch {b : Graph K} (hS : b.Sound) (hAcy : b.Acyclic) {ms : List Match}
    (hLists : t.rules.Lists b ms) {carried : List (Match × Step)}
    (hPerf : t.rules.Performs b carried r.level) :
    Ends (Greedy.rematch t (carried.map Prod.snd) ms) r
      (fun known r' => hReg.conduct.At site done r' ∧ r.Around r' ∧
        r.level.Unchanged r'.level ∧ t.rules.Lists r'.level known)
      (fun fault _ => hReg.conduct.Allowed fault) := by
  have hSea := hReg.searchable hAt
  have hEdited := hPerf.edited hReg.compiled hS hAcy
  let steps := carried.map Prod.snd
  let near := r.level.neighbourhood (sortSlots (steps.flatMap Step.touched)) t.rules.radius
  refine .get_bind ((Conduct.ends_findInLevel hAt (some near)).bind ?_)
  rintro found r' ⟨hAt', hAr, hU, -, hY⟩
  rcases hReg.compiled.yields_findMatches hSea (some near) with ⟨g', hFnd, -, -⟩
  obtain ⟨rfl, -⟩ := hY.unique hFnd
  refine .of_pure ⟨hAt', hAr, hU, ?_⟩
  refine (hLists.rematched hReg.compiled hFunnels hEdited hS hAcy hSea.sound
    hSea.acyclic ?_ (fun n => Iff.rfl)).of_resembles hU.1.resembles
  intro n _ hTouched
  rwa [map_toNat_sortSlots, mem_sortIds]

end

theorem finite
    (hShrinks : ∀ rule ∈ t.rules.rules, rule.replacement.ops.length < rule.pattern.ops.length)
    (hMode : t.settings.mode = .greedy) : hReg.conduct.Finite where
  allowed := by
    rintro ⟨hFault, -⟩
    exact nomatch hFault
  greedy _ site := by
    refine ⟨fun r => r.level.ops.length, Conduct.Falls.sinks ⟨?_, ?_⟩ site⟩
    · intro r r' _ hU
      exact (congrArg List.length hU.1.ops).le
    · intro r r₁ r₂ r' carried a h hGood hSome _ _ _ _ hDer
      have hSea := (hReg.workable hGood).searchable
      exact (hReg.performs hDer).length_ops_lt hShrinks hSea.sound hSea.acyclic hSome
  bounded hBounded := nomatch hMode.symm.trans hBounded

end Task.Regular

end CircuitGraph
