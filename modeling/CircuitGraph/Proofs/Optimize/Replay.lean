import CircuitGraph.Proofs.Optimize.Safety
import CircuitGraph.Proofs.Substitution.Agreement

/-
  The log of an optimisation can be replayed.

  Searches work on copies, take graphs over and plan several
  substitutions before they carry out the first of them.

  Main declarations:
    * `RuleSet.Replays`: steps done again
    * `optimize_log_replays`
-/

---- Replays ----

namespace CircuitGraph

open CircuitGraph.Graph

variable {K : Type} [Scalar K]

/- Whether steps can be done one after the other, each in the graph at its path. -/
inductive RuleSet.Replays (rs : RuleSet K) : Graph K → List Step → Graph K → Prop where
  | nil (g : Graph K) : Replays rs g [] g
  | cons {g level level' g' : Graph K} {s : Step} {h : List Step}
      (place : g.bodyAt? s.path = some level) (again : rs.Repeats level s level')
      (rest : Replays rs (g.replaceAt s.path level') h g') :
      Replays rs g (s :: h) g'

namespace RuleSet.Replays

variable {rs : RuleSet K} {a g g' g'' body body' : Graph K} {h h' : List Step}

theorem append (hL : rs.Replays g h g') (hR : rs.Replays g' h' g'') :
    rs.Replays g (h ++ h') g'' := by
  induction hL with
  | nil => exact hR
  | cons hPlace hAgain _ ih => exact .cons hPlace hAgain (ih hR)

theorem located (hReplays : rs.Replays body h body') (hPlain : ∀ s ∈ h, s.path = [])
    {path : List Nat} (hB : g.bodyAt? path = some body) (hSelf : g.replaceAt path body = g) :
    rs.Replays g (h.map (Step.located path)) (g.replaceAt path body') := by
  induction hReplays generalizing g with
  | nil body =>
    rw [hSelf]
    exact .nil g
  | @cons body level level' body' s h hPlace hAgain _ ih =>
    have hPath : s.path = [] := hPlain s List.mem_cons_self
    rw [hPath] at hPlace ih
    obtain rfl : body = level := Option.some.inj hPlace
    have hNext := ih (fun s' hM => hPlain s' (List.mem_cons_of_mem _ hM))
      (bodyAt?_replaceAt hB level') (replaceAt_replaceAt g path level' level')
    rw [replaceAt_replaceAt] at hNext
    exact .cons (s := s.located path) hB hAgain hNext

variable [Scalar.Ordered K]

section

variable (hSpares : rs.Spares rs.Room) (hC : rs.Compiled)
  (hRules : ∀ rule ∈ rs.rules, rule.Reachable)

include hSpares hC hRules

theorem workable_of_repeats {s : Step} (hWk : a.Workable rs.Room g) (hRepeats : rs.Repeats g s g') :
    a.Workable rs.Room g' := by
  rcases hRepeats.exists_carries hC hWk.searchable with
    ⟨p, done, g₁, hRer, hCar, -⟩
  exact (hWk.of_reranked hRer).carryOut hSpares hRules hCar.secure.ready hCar.yields

theorem of_essence (hReplays : rs.Replays g h g') (hPlain : ∀ s ∈ h, s.path = []) {c : Graph K}
    (hWk : a.Workable rs.Room g) (hWk' : a.Workable rs.Room c) (hEss : c.essence = g.essence) :
    ∃ c', rs.Replays c h c' ∧ a.Workable rs.Room c' ∧ c'.essence = g'.essence := by
  induction hReplays generalizing c with
  | nil g => exact ⟨c, .nil c, hWk', hEss⟩
  | @cons g level level' g' s h hPlace hAgain _ ih =>
    have hPath : s.path = [] := hPlain s List.mem_cons_self
    rw [hPath] at hPlace ih
    obtain rfl : g = level := Option.some.inj hPlace
    rcases hAgain.of_essence hC hWk.searchable hWk'.searchable
      hEss with ⟨c₁, hOnce, hSame⟩
    rcases ih (fun s' hM => hPlain s' (List.mem_cons_of_mem _ hM))
      (workable_of_repeats hSpares hC hRules hWk hAgain)
      (workable_of_repeats hSpares hC hRules hWk' hOnce) hSame with
      ⟨c', hRest, hWorkEnd, hEnd⟩
    have hHere : c.bodyAt? s.path = some c := by
      rw [hPath]
      rfl
    refine ⟨c', .cons hHere hOnce ?_, hWorkEnd, hEnd⟩
    rw [hPath]
    exact hRest

end

end RuleSet.Replays

---- Searches ----

def RuleSet.Derives (rs : RuleSet K) (a : Graph K) (h : List Step) (b : Graph K) : Prop :=
  ∃ c, rs.Replays a h c ∧ a.Workable rs.Room c ∧ c.essence = b.essence

namespace RuleSet.Derives

variable {rs : RuleSet K} {a b b' body body' : Graph K} {h h' : List Step}

theorem of_essence (hDer : rs.Derives a h b) (hEss : b.essence = b'.essence) :
    rs.Derives a h b' := by
  rcases hDer with ⟨c, hReplays, hWk, hSame⟩
  exact ⟨c, hReplays, hWk, hSame.trans hEss⟩

theorem refl (hWk : a.Workable rs.Room a) : rs.Derives a [] a :=
  ⟨a, .nil a, hWk, rfl⟩

variable [Scalar.Ordered K]

section

variable (hDer : rs.Derives a h b) (hSpares : rs.Spares rs.Room) (hC : rs.Compiled)
  (hRules : ∀ rule ∈ rs.rules, rule.Reachable) (hWk : a.Workable rs.Room b)

include hDer hSpares hC hRules hWk

theorem step {p : Plan} {s : Step} (hCar : rs.Carries b p s b') : rs.Derives a (h ++ [s]) b' := by
  have hSea := hWk.searchable
  have hPath : s.path = [] := RuleSet.path_of_carryOut hCar.yields
  rcases hDer with ⟨c, hReplays, hWk', hEss⟩
  rcases hCar.exists_repeats hC hSea hWk'.searchable hEss with
    ⟨c', hAgain, hEnd⟩
  have hHere : c.bodyAt? s.path = some c := by
    rw [hPath]
    rfl
  refine ⟨c', hReplays.append (.cons hHere hAgain ?_),
    Replays.workable_of_repeats hSpares hC hRules hWk' hAgain, hEnd⟩
  rw [hPath]
  exact .nil c'

theorem replaceAt {path : List Nat} (hB : b.bodyAt? path = some body)
    (hIn : rs.Derives body h' body') (hPlain : ∀ s ∈ h', s.path = []) :
    rs.Derives a (h ++ h'.map (Step.located path)) (b.replaceAt path body') := by
  rcases hDer with ⟨c, hReplays, hWk', hEss⟩
  rcases hIn with ⟨d, hDone, -, hEnd⟩
  -- the replay so far has a graph of the same essence at the path
  have hThere : (c.bodyAt? path).map Graph.essence = some body.essence := by
    rw [← hWk'.intact.bodyAt?_essence, hEss, hWk.intact.bodyAt?_essence, hB]
    rfl
  rcases Option.map_eq_some_iff.mp hThere with ⟨base, hBase, hSame⟩
  have hBd : base.signature = body.signature := by
    rw [← base.signature_essence, hSame, signature_essence]
  have hBaseWork := hWk'.bodyAt? hBase
  rcases Replays.of_essence hSpares hC hRules hDone hPlain (hWk.bodyAt? hB)
    ⟨hBaseWork.levels, hBaseWork.formed, hBd⟩ hSame with ⟨d', hAgain, hLast, hEnd'⟩
  refine ⟨c.replaceAt path d',
    hReplays.append (hAgain.located hPlain hBase (hWk'.intact.replaceAt_self hBase)),
    hWk'.replaceAt hBase ⟨hLast.levels, hLast.formed, hLast.boundary.trans hBd.symm⟩, ?_⟩
  rw [hWk'.intact.essence_replaceAt, hWk.intact.essence_replaceAt, hEss, hEnd', hEnd]

end

end RuleSet.Derives

end CircuitGraph
