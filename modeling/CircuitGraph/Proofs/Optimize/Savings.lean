import CircuitGraph.Proofs.Optimize.Selection

/-
  Matches that save something.

  What a match saves under a local cost is told by its rule;
  under another cost the match has to be tried out.
-/

---- Saving ----

namespace CircuitGraph

open List

variable {K : Type} [Scalar K] {g g' : Graph K}

def Cost.Falls (cost : Cost K) (g g' : Graph K) : Prop :=
  ∃ before after, cost.eval g = .ok before ∧ cost.eval g' = .ok after ∧
    ((0 : Nat) : K) < before - after

namespace RuleSet

def Saves (rs : RuleSet K) (cost : Cost K) (g : Graph K) (m : Match) (rule : Rule K) : Prop :=
  if cost.isLocal then ∃ gain, cost.gain rule = .ok gain ∧ ((0 : Nat) : K) < gain
  else ∃ step g', Yields (rs.apply m) g.copy step g' ∧ cost.Falls g g'

def Spent (rs : RuleSet K) (cost : Cost K) (g : Graph K) : Prop :=
  ∀ m rule f, rs.Finds g m rule f → ¬ rs.Saves cost g m rule

theorem Spent.of_resembles {rs : RuleSet K} {cost : Cost K} (hSpent : rs.Spent cost g)
    (hLocal : cost.isLocal = true) (hSame : g.Resembles g') : rs.Spent cost g' := by
  intro m rule f hFinds hSaves
  apply hSpent m rule f (hFinds.of_resembles hSame.symm)
  rw [Saves, if_pos hLocal] at hSaves ⊢
  exact hSaves

/-
  The same in a part of another graph: `place` says what comes
  of that graph if a graph stands in for the part.
-/
def SavesIn (rs : RuleSet K) (cost : Cost K) (place : Graph K → Graph K) (g : Graph K) (m : Match)
    (rule : Rule K) : Prop :=
  if cost.isLocal then ∃ gain, cost.gain rule = .ok gain ∧ ((0 : Nat) : K) < gain
  else ∃ step g', Yields (rs.apply m) g.copy step g' ∧ cost.Falls (place g) (place g')

def SpentIn (rs : RuleSet K) (cost : Cost K) (place : Graph K → Graph K) (g : Graph K) : Prop :=
  ∀ m rule f, rs.Finds g m rule f → ¬ rs.SavesIn cost place g m rule

theorem spentIn_replaceAt_iff {rs : RuleSet K} {cost : Cost K} {root : Graph K} {path : List Nat}
    (hPath : cost.isLocal = true ∨ path = []) :
    rs.SpentIn cost (root.replaceAt path) g ↔ rs.Spent cost g := by
  rcases hPath with hLocal | rfl
  · simp only [SpentIn, Spent, SavesIn, Saves, if_pos hLocal]
  · rfl

end RuleSet

variable [Scalar.Ordered K]

section

variable {t : Task K} {a a' : Graph K} (hReg : t.Regular) (hWk : a.Workable t.rules.Room g)
  (hWk' : a'.Workable t.rules.Room g') (hEss : g'.essence = g.essence)

include hReg hWk hWk' hEss

theorem Task.Regular.savesIn_of_essence (place place' : Graph K → Graph K)
    (hPlace : ∀ {h h' : Graph K}, a.Workable t.rules.Room h → a'.Workable t.rules.Room h' → h'.essence = h.essence →
      t.cost.eval (place' h') = t.cost.eval (place h)) {m m' : Match}
    (hFnd : ∃ rule f, t.rules.Finds g m rule f) (hFnd' : ∃ rule f, t.rules.Finds g' m' rule f)
    (hPlain : m'.plain = m.plain) {rule : Rule K}
    (hSaves : t.rules.SavesIn t.cost place' g' m' rule) :
    t.rules.SavesIn t.cost place g m rule := by
  by_cases hLocal : t.cost.isLocal = true
  · rwa [RuleSet.SavesIn, if_pos hLocal] at hSaves ⊢
  · rw [RuleSet.SavesIn, if_neg hLocal] at hSaves ⊢
    rcases hSaves with ⟨step', trial', hY', before, after, hBef, hAfter, hLess⟩
    rcases hReg.exists_trial hWk hFnd with ⟨step, trial, hY, hTrial, -⟩
    rcases hReg.exists_trial hWk' hFnd' with ⟨_, _, hAgain, hTrial', -⟩
    obtain ⟨rfl, rfl⟩ := hY'.unique hAgain
    have hSame := hReg.essence_trial hWk hWk' hEss hFnd hFnd' hPlain hY hY'
    refine ⟨step, trial, hY, before, after, ?_, ?_, hLess⟩
    · rw [← hBef, hPlace hWk hWk' hEss]
    · rw [← hAfter, hPlace hTrial hTrial' hSame]

theorem Task.Regular.spent_of_essence (hSpent : t.rules.Spent t.cost g) :
    t.rules.Spent t.cost g' := by
  intro m rule f hFinds hSaves
  have hSame : g'.Resembles g := Graph.resembles_of_essence hWk'.intact.sound.unique
    hWk.intact.sound.unique hEss
  have hThere := hFinds.of_resembles hSame
  refine hSpent m rule f hThere (hReg.savesIn_of_essence hWk hWk' hEss id id
    ?_ ⟨rule, f, hThere⟩ ⟨rule, f, hFinds⟩ rfl hSaves)
  intro h h' hL hR hSame
  exact hReg.cost.eval_eq hR.intact hL.intact hSame

end

---- Selecting Nothing ----

variable {K : Type} [Scalar K]

namespace Greedy

theorem disjoint_eq_nil_iff (ms : List Match) : disjoint [] ms = [] ↔ ms = [] := by
  cases ms with
  | nil => exact Iff.rfl
  | cons m ms => simp [disjoint]

theorem batchOf_eq_nil_iff (ranks : List Nat) (gains : List K) (ms : List Match) :
    batchOf ranks gains ms = [] ↔
      ∀ m ∈ ms, ∀ gain, gains[m.rule]? = some gain → ¬ ((0 : Nat) : K) < gain := by
  have hImproving : batchOf ranks gains ms = [] ↔ improving gains ms = [] := by
    rw [batchOf, disjoint_eq_nil_iff, map_eq_nil_iff, ← length_eq_zero_iff,
      length_mergeSort, length_eq_zero_iff]
  rw [hImproving, improving, filterMap_eq_nil_iff]
  refine forall₂_congr (fun m _ => ?_)
  cases gains[m.rule]? with
  | none => simp
  | some gain => simp

end Greedy

namespace Task.Regular

variable [Scalar.Ordered K] {t : Task K} (hReg : t.Regular) {site : Site K}
  {done : List Step} {r : Run K}

omit [Scalar.Ordered K] in
theorem trial_eq_none_iff (hGlobal : ¬ t.cost.isLocal = true) {path : List Nat} {current : K}
    (hCurrent : t.cost.eval (r.root.replaceAt path r.level) = .ok current) (m : Match)
    (rule : Rule K) : t.trial r path current m = none ↔
      ¬ t.rules.SavesIn t.cost (r.root.replaceAt path) r.level m rule := by
  rw [RuleSet.SavesIn, if_neg hGlobal, ← not_iff_not, not_not, ← ne_eq, Option.ne_none_iff_exists']
  constructor
  · rintro ⟨entry, hTrial⟩
    rcases Task.trial_eq_some_iff.mp hTrial with ⟨step, g, value, hY, hValue, hLess, -⟩
    exact ⟨step, g, hY, current, value, hCurrent, hValue, hLess⟩
  · rintro ⟨step, g, hY, before, value, hBef, hValue, hLess⟩
    cases hBef.symm.trans hCurrent
    exact ⟨_, Task.trial_eq_some_iff.mpr ⟨step, g, value, hY, hValue, hLess, rfl⟩⟩

theorem eval_replaceAt_eq (hAt : hReg.conduct.At site done r) {h h' : Graph K}
    (hWk : site.base.Workable t.rules.Room h) (hWk' : site.base.Workable t.rules.Room h') (hEss : h'.essence = h.essence) :
    t.cost.eval (site.root.replaceAt site.path h') = t.cost.eval (site.root.replaceAt site.path h) := by
  have hAr := hReg.workable hAt.around
  apply hReg.cost.eval_eq (hAr.replaceAt hAt.place hWk').intact (hAr.replaceAt hAt.place hWk).intact
  rw [hAr.intact.essence_replaceAt, hEss, hAr.intact.essence_replaceAt]

/- From all matches nothing is selected if and only if none of them saves anything. -/
theorem batch_eq_nil_iff (hGains : ruleGains t.cost t.rules = .ok t.gains)
    (hAt : hReg.conduct.At site done r) {ms : List Match} (hLists : t.rules.Lists r.level ms) :
    t.batch r site.path ms = [] ↔
      t.rules.SpentIn t.cost (site.root.replaceAt site.path) r.level := by
  have hWk := hReg.workable hAt.level
  -- it is enough to look at the matches listed
  have hSpent : t.rules.SpentIn t.cost (site.root.replaceAt site.path) r.level ↔
      ∀ m ∈ ms, ∀ rule, t.rules.rules[m.rule]? = some rule →
        ¬ t.rules.SavesIn t.cost (site.root.replaceAt site.path) r.level m rule := by
    constructor
    · intro hSpent m hM rule hRule
      rcases hLists.found m hM with ⟨rule', f, hFinds⟩
      obtain rfl : rule = rule' := eq_of_some hRule hFinds.member
      exact hSpent m rule f hFinds
    · intro hNone m rule f hFinds hSaves
      rcases hLists.exists_plain_eq hFinds with ⟨m', hM, hFinds', hPlain⟩
      exact hNone m' hM rule hFinds'.member (hReg.savesIn_of_essence hWk hWk rfl _ _
        (hReg.eval_replaceAt_eq hAt) ⟨rule, f, hFinds'⟩ ⟨rule, f, hFinds⟩ hPlain.symm hSaves)
  rw [hSpent, Task.batch]
  by_cases hLocal : t.cost.isLocal = true
  · rw [if_pos hLocal, Greedy.batchOf_eq_nil_iff]
    rw [ruleGains, if_pos hLocal] at hGains
    refine forall₂_congr (fun m hM => ?_)
    rcases hLists.found m hM with ⟨rule, f, hFinds⟩
    rcases getElem?_of_mapM hGains hFinds.member with ⟨gain, hGain, hOf⟩
    simp [hFinds.member, hGain, RuleSet.SavesIn, hLocal, hOf]
  · rw [if_neg hLocal, ← hAt.root]
    split
    · rename_i hFault
      simp [RuleSet.SavesIn, hLocal, Cost.Falls, hFault]
    · rename_i current hCurrent
      rw [take_eq_nil_iff, map_eq_nil_iff, ← length_eq_zero_iff, length_mergeSort,
        length_eq_zero_iff, filterMap_eq_nil_iff, or_iff_right Nat.one_ne_zero]
      refine forall₂_congr (fun m hM => ?_)
      rcases hLists.found m hM with ⟨rule, f, hFinds⟩
      rw [trial_eq_none_iff hLocal hCurrent m rule, hFinds.member]
      simp

end Task.Regular

end CircuitGraph
