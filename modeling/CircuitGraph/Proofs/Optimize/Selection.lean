import CircuitGraph.Proofs.Graph.Valuation
import CircuitGraph.Proofs.Optimize.Batches

/-
  The same selection in graphs of the same essence.

  Which matches are taken depends on their rules, roots and
  nodes, and for a cost of whole graphs on what comes of them.
-/

---- Pairs of Computations ----

namespace CircuitGraph

open List

variable {α β γ δ ε σ : Type}

/- What holds of two computations whenever both of them yield something. -/
def Agree (e : ExceptT ε (StateM σ) α) (s : σ) (e' : ExceptT ε (StateM σ) β) (s' : σ)
    (Q : α → σ → β → σ → Prop) : Prop :=
  ∀ a t b t', Yields e s a t → Yields e' s' b t' → Q a t b t'

namespace Agree

variable {e : ExceptT ε (StateM σ) α} {e' : ExceptT ε (StateM σ) β} {s s' : σ}
  {Q : α → σ → β → σ → Prop}

theorem of_ends {P : α → σ → Prop} {P' : β → σ → Prop} {E E' : ε → σ → Prop} (hL : Ends e s P E)
    (hR : Ends e' s' P' E') : Agree e s e' s' (fun a t b t' => P a t ∧ P' b t') :=
  fun a t b t' hY hY' => ⟨hL.1 a t hY, hR.1 b t' hY'⟩

theorem with_yields (hAgree : Agree e s e' s' Q) :
    Agree e s e' s' (fun a t b t' => Q a t b t' ∧ Yields e s a t ∧ Yields e' s' b t') :=
  fun a t b t' hY hY' => ⟨hAgree a t b t' hY hY', hY, hY'⟩

theorem mono {R : α → σ → β → σ → Prop} (hAgree : Agree e s e' s' Q)
    (hThen : ∀ a t b t', Q a t b t' → R a t b t') : Agree e s e' s' R :=
  fun a t b t' hY hY' => hThen a t b t' (hAgree a t b t' hY hY')

theorem bind {f : α → ExceptT ε (StateM σ) γ} {f' : β → ExceptT ε (StateM σ) δ}
    {R : γ → σ → δ → σ → Prop} (hFirst : Agree e s e' s' Q)
    (hThen : ∀ a t b t', Q a t b t' → Agree (f a) t (f' b) t' R) :
    Agree (e >>= f) s (e' >>= f') s' R := by
  intro c u d u' hY hY'
  rcases yields_bind_iff.mp hY with ⟨a, t, hL, hL'⟩
  rcases yields_bind_iff.mp hY' with ⟨b, t', hR, hR'⟩
  exact hThen a t b t' (hFirst a t b t' hL hR) c u d u' hL' hR'

theorem of_pure {a : α} {b : β} (hRes : Q a s b s') :
    Agree (pure a : ExceptT ε (StateM σ) α) s (pure b : ExceptT ε (StateM σ) β) s' Q := by
  intro a' t b' t' hY hY'
  rcases yields_pure_iff.mp hY with ⟨rfl, rfl⟩
  rcases yields_pure_iff.mp hY' with ⟨rfl, rfl⟩
  exact hRes

theorem get_bind {f : σ → ExceptT ε (StateM σ) γ} {f' : σ → ExceptT ε (StateM σ) δ}
    {R : γ → σ → δ → σ → Prop} (hThen : Agree (f s) s (f' s') s' R) :
    Agree (get >>= f) s (get >>= f') s' R :=
  hThen

theorem modify_bind {h h' : σ → σ} {f : PUnit → ExceptT ε (StateM σ) γ}
    {f' : PUnit → ExceptT ε (StateM σ) δ} {R : γ → σ → δ → σ → Prop}
    (hThen : Agree (f ⟨⟩) (h s) (f' ⟨⟩) (h' s') R) :
    Agree (modify h >>= f) s (modify h' >>= f') s' R :=
  hThen

theorem of_ite {p p' : Prop} [Decidable p] [Decidable p'] {d : ExceptT ε (StateM σ) α}
    {d' : ExceptT ε (StateM σ) β} (hSame : p ↔ p') (hThen : p → Agree e s e' s' Q)
    (hElse : ¬ p → Agree d s d' s' Q) :
    Agree (if p then e else d) s (if p' then e' else d') s' Q := by
  by_cases hHolds : p
  · rw [if_pos hHolds, if_pos (hSame.mp hHolds)]
    exact hThen hHolds
  · rw [if_neg hHolds, if_neg (mt hSame.mpr hHolds)]
    exact hElse hHolds

end Agree

---- Plain Batches ----

namespace Greedy

variable {K : Type} [Scalar K]

def plainEntry (entry : K × Match) : K × Match :=
  (entry.1, entry.2.plain)

omit [Scalar K] in
theorem map_snd_plainEntry (entries : List (K × Match)) :
    (entries.map plainEntry).map Prod.snd = (entries.map Prod.snd).map Match.plain := by
  rw [map_map, map_map]
  rfl

theorem map_mergeSort_plainEntry (ranks : List Nat) (entries : List (K × Match)) :
    (entries.mergeSort (before ranks)).map plainEntry =
      (entries.map plainEntry).mergeSort (before ranks) := by
  apply map_mergeSort
  intro a _ b _
  simp only [before, orderKey, plainEntry, Match.rule_plain, Match.toNat_root_plain,
    Match.ids_plain]

theorem map_plainEntry_improving (gains : List K) (ms : List Match) :
    (improving gains ms).map plainEntry = improving gains (ms.map Match.plain) := by
  rw [improving, improving, map_filterMap, filterMap_map]
  apply filterMap_congr
  intro m _
  simp only [Function.comp_apply, Match.rule_plain]
  cases gains[m.rule]? with
  | none => rfl
  | some gain =>
    simp only
    split <;> rfl

theorem map_plain_disjoint (claimed : List Nat) (ms : List Match) :
    (disjoint claimed ms).map Match.plain = disjoint claimed (ms.map Match.plain) := by
  induction ms generalizing claimed with
  | nil => rfl
  | cons m ms ih =>
    rw [map_cons, disjoint, disjoint, Match.ids_plain]
    split
    · exact ih claimed
    · rw [map_cons, ih]

theorem map_plain_batchOf (ranks : List Nat) (gains : List K) (ms : List Match) :
    (batchOf ranks gains ms).map Match.plain = batchOf ranks gains (ms.map Match.plain) := by
  rw [batchOf, batchOf, map_plain_disjoint, ← map_snd_plainEntry, map_mergeSort_plainEntry,
    map_plainEntry_improving]

end Greedy

---- Twins ----

variable {K : Type}

/- Runs that are at the same point, in graphs of the same essence. -/
structure Run.Twin (r r' : Run K) : Prop where
  root : r'.root.essence = r.root.essence
  level : r'.level.essence = r.level.essence
  iterations : r'.iterations = r.iterations
  log : r'.log.map Step.plain = r.log.map Step.plain

theorem Run.Twin.of_still {r r' s s' : Run K} (hTwin : r.Twin r') (hStill : r.Still s)
    (hStill' : r'.Still s') : s.Twin s' := by
  refine ⟨?_, ?_, ?_, ?_⟩
  · rw [hStill'.root, hStill.root, hTwin.root]
  · rw [hStill'.level, hStill.level, hTwin.level]
  · rw [hStill'.iterations, hStill.iterations, hTwin.iterations]
  · rw [hStill'.log, hStill.log, hTwin.log]

namespace Task.Regular

variable [Scalar K] [Scalar.Ordered K] {t : Task K} (hReg : t.Regular)
  (settings : Settings K)

/-
  Two runs of one task with different settings, at the same
  place and at the same point.
-/
structure Abreast (site site' : Site K) (done done' : List Step) (r r' : Run K) : Prop where
  left : hReg.conduct.At site done r
  right : (hReg.of_settings settings).conduct.At site' done' r'
  path : site'.path = site.path
  twin : r.Twin r'

variable {hReg settings} {site site' : Site K} {done done' : List Step} {r r' : Run K}

theorem Abreast.of_still (hAbr : hReg.Abreast settings site site' done done' r r')
    {s s' : Run K} (hStill : r.Still s) (hStill' : r'.Still s') :
    hReg.Abreast settings site site' done done' s s' :=
  ⟨hAbr.left.of_still hStill, hAbr.right.of_still hStill', hAbr.path,
    hAbr.twin.of_still hStill hStill'⟩

theorem Abreast.eval_replaceAt_eq (hAbr : hReg.Abreast settings site site' done done' r r')
    {g g' : Graph K} (hWk : site.base.Workable t.rules.Room g) (hWk' : site'.base.Workable t.rules.Room g')
    (hEss : g'.essence = g.essence) :
    t.cost.eval (r'.root.replaceAt site'.path g') = t.cost.eval (r.root.replaceAt site.path g) := by
  have hAr := hReg.workable hAbr.left.around
  have hAr' := (hReg.of_settings settings).workable hAbr.right.around
  have hWhole := hAr.replaceAt hAbr.left.place hWk
  have hWhole' := hAr'.replaceAt hAbr.right.place hWk'
  rw [← hAbr.left.root] at hAr hWhole
  rw [← hAbr.right.root] at hAr' hWhole'
  apply hReg.cost.eval_eq hWhole'.intact hWhole.intact
  rw [hAr'.intact.essence_replaceAt, hAr.intact.essence_replaceAt, hAbr.path, hAbr.twin.root, hEss]

theorem exists_trial (hReg : t.Regular) {a g : Graph K} (hWk : a.Workable t.rules.Room g) {m : Match}
    (hFnd : ∃ rule f, t.rules.Finds g m rule f) :
    ∃ step trial, Yields (t.rules.apply m) g.copy step trial ∧ a.Workable t.rules.Room trial ∧
      ∃ p g₁, g.copy.Reranked g₁ ∧ p.found = m ∧ t.rules.Carries g₁ p step trial := by
  rcases hFnd with ⟨rule, f, hFinds⟩
  have hCopy : t.rules.Finds g.copy m rule f := hFinds.of_resembles (Graph.resembles_of_essence
    hWk.intact.sound.unique hWk.intact.copy.sound.unique hWk.intact.essence_copy.symm)
  have hSea := hWk.copy.searchable
  rcases hReg.compiled.exists_applies hSea hCopy with ⟨q, splicing, trial, hApplies⟩
  rcases hReg.compiled.carries_of_apply hSea ⟨rule, f, hCopy⟩ hApplies.yields with
    ⟨p, g₁, hRer, hFnd, hCar⟩
  have hTrial := (hWk.copy.of_reranked hRer).carryOut hReg.spares hReg.rules hCar.secure.ready hCar.yields
  exact ⟨_, trial, hApplies.yields, hTrial, p, g₁, hRer, hFnd, hCar⟩

theorem essence_trial (hReg : t.Regular) {a a' g g' : Graph K} (hWk : a.Workable t.rules.Room g)
    (hWk' : a'.Workable t.rules.Room g') (hEss : g'.essence = g.essence) {m m' : Match}
    (hFnd : ∃ rule f, t.rules.Finds g m rule f) (hFnd' : ∃ rule f, t.rules.Finds g' m' rule f)
    (hPlain : m'.plain = m.plain) {step step' : Step} {trial trial' : Graph K}
    (hY : Yields (t.rules.apply m) g.copy step trial)
    (hY' : Yields (t.rules.apply m') g'.copy step' trial') :
    trial'.essence = trial.essence := by
  rcases hReg.exists_trial hWk hFnd with
    ⟨_, _, hApply, -, p, g₁, hRer, rfl, hCar⟩
  rcases hReg.exists_trial hWk' hFnd' with
    ⟨_, _, hApply', -, p', g₁', hRer', rfl, hCar'⟩
  obtain ⟨rfl, rfl⟩ := hY.unique hApply
  obtain ⟨rfl, rfl⟩ := hY'.unique hApply'
  have hSea := (hWk.copy.of_reranked hRer).searchable
  have hSea' := (hWk'.copy.of_reranked hRer').searchable
  have hStart : g₁'.essence = g₁.essence := by
    rw [← Graph.essence_of_alike hRer.unchanged.1 hWk.intact.copy.sound.unique,
      ← Graph.essence_of_alike hRer'.unchanged.1 hWk'.intact.copy.sound.unique,
      hWk.intact.essence_copy, hWk'.intact.essence_copy, hEss]
  exact (hCar.agree hCar' hSea.sound hSea.acyclic hSea'.sound hSea'.acyclic hStart hPlain).1

section

variable (hAbr : hReg.Abreast settings site site' done done' r r')

include hAbr

theorem plain_trial {m m' : Match} (hFnd : ∃ rule f, t.rules.Finds r.level m rule f)
    (hFnd' : ∃ rule f, t.rules.Finds r'.level m' rule f) (hPlain : m'.plain = m.plain)
    (current : K) : (t.trial r' site'.path current m').map Greedy.plainEntry =
      (t.trial r site.path current m).map Greedy.plainEntry := by
  have hWk := hReg.workable hAbr.left.level
  have hWk' := (hReg.of_settings settings).workable hAbr.right.level
  rcases hReg.exists_trial hWk hFnd with ⟨step, g, hY, hTrial, -⟩
  rcases hReg.exists_trial hWk' hFnd' with ⟨step', g', hY', hTrial', -⟩
  have hEss := hReg.essence_trial hWk hWk' hAbr.twin.level hFnd hFnd' hPlain hY hY'
  rw [Task.trial, Task.trial, RuleSet.attempt_eq_some_iff.mpr hY,
    RuleSet.attempt_eq_some_iff.mpr hY']
  simp only [Option.bind_eq_bind, Option.bind_some, hAbr.eval_replaceAt_eq hTrial hTrial' hEss]
  cases t.cost.eval (r.root.replaceAt site.path g) with
  | error fault => rfl
  | ok value =>
    simp only [Except.toOption, Option.bind_some]
    split
    · simp only [Option.map_some, Greedy.plainEntry, hPlain]
    · rfl

theorem plain_batch {ms ms' : List Match} (hLists : t.rules.Lists r.level ms)
    (hLists' : t.rules.Lists r'.level ms') :
    (t.batch r' site'.path ms').map Match.plain = (t.batch r site.path ms).map Match.plain := by
  have hWk := hReg.workable hAbr.left.level
  have hWk' := (hReg.of_settings settings).workable hAbr.right.level
  have hPlain : ms'.map Match.plain = ms.map Match.plain := by
    refine hLists'.map_plain_eq (hLists.of_resembles ?_)
    exact Graph.resembles_of_essence hWk.intact.sound.unique hWk'.intact.sound.unique
      hAbr.twin.level.symm
  have hTrials : ∀ current, (ms'.filterMap (t.trial r' site'.path current)).map Greedy.plainEntry =
      (ms.filterMap (t.trial r site.path current)).map Greedy.plainEntry := by
    intro current
    have hFnd := hLists.found
    have hFnd' := hLists'.found
    clear hLists hLists'
    induction ms generalizing ms' with
    | nil =>
      obtain rfl := map_eq_nil_iff.mp hPlain
      rfl
    | cons m ms ih =>
      rcases map_eq_cons_iff.mp hPlain with ⟨m', rest, rfl, hHead, hTail⟩
      have hTrial := plain_trial hAbr (hFnd m mem_cons_self) (hFnd' m' mem_cons_self) hHead current
      have hRest := ih hTail (fun k hM => hFnd k (mem_cons_of_mem _ hM))
        (fun k hM => hFnd' k (mem_cons_of_mem _ hM))
      rw [map_filterMap] at hRest ⊢
      rw [map_filterMap] at hRest ⊢
      rw [filterMap_cons, filterMap_cons, hTrial, hRest]
  unfold Task.batch
  rw [hAbr.eval_replaceAt_eq hWk hWk' hAbr.twin.level]
  split
  · rw [Greedy.map_plain_batchOf, Greedy.map_plain_batchOf, hPlain]
  · split
    · rfl
    · rw [map_take, map_take, ← Greedy.map_snd_plainEntry, ← Greedy.map_snd_plainEntry,
        Greedy.map_mergeSort_plainEntry, Greedy.map_mergeSort_plainEntry, hTrials]

end

end Task.Regular

end CircuitGraph
