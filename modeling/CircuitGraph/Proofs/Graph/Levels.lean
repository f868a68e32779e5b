import CircuitGraph.Optimize.Outcome
import CircuitGraph.Proofs.Graph.Mirror

/-
  The graphs nested in a graph.

  Every nested graph has one path.  Replacing the graph at a
  path changes those above it and leaves those beside it as
  they are.
-/

---- Replacing at a Path ----

namespace CircuitGraph

open List

variable {path : List Nat}

namespace Graph

variable {K : Type} {g : Graph K} {body : Graph K}

theorem op?_replaceAt (g : Graph K) (n : Nat) (path : List Nat) (body : Graph K) (m : Nat) :
    (g.replaceAt (n :: path) body).op? m = (g.op? m).map (withBodyAt n path body) := by
  rw [op?, replaceAt, find?_map]
  congr 2
  funext node
  dsimp only [Function.comp]
  split <;> rfl

theorem bodyAt?_cons (g : Graph K) (n : Nat) (path : List Nat) :
    g.bodyAt? (n :: path) = ((g.op? n).bind Node.body).bind (fun inner => inner.bodyAt? path) := by
  rw [bodyAt?]
  cases g.op? n with
  | none => rfl
  | some node => cases hB : node.body <;> simp [hB]

theorem bodyAt?_append (g : Graph K) (path rest : List Nat) :
    g.bodyAt? (path ++ rest) = (g.bodyAt? path).bind (fun inner => inner.bodyAt? rest) := by
  induction path generalizing g with
  | nil => rfl
  | cons n path ih =>
    rw [cons_append, bodyAt?_cons, bodyAt?_cons]
    cases (g.op? n).bind Node.body with
    | none => rfl
    | some inner => exact ih inner

theorem bodyAt?_replaceAt_cons (g : Graph K) (n : Nat) (path other : List Nat) (body : Graph K) :
    (g.replaceAt (n :: path) body).bodyAt? (n :: other) =
      ((g.op? n).bind Node.body).bind (fun inner => (inner.replaceAt path body).bodyAt? other) := by
  rw [bodyAt?_cons, op?_replaceAt]
  cases hOp : g.op? n with
  | none => rfl
  | some node =>
    have hId : node.id = n := (op?_eq_some hOp).2
    cases hB : node.body <;> simp [withBodyAt, hId, hB]

theorem bodyAt?_replaceAt_above {outer : List Nat} {around : Graph K}
    (hAr : g.bodyAt? outer = some around) (path : List Nat) (body' : Graph K) :
    (g.replaceAt (outer ++ path) body').bodyAt? outer = some (around.replaceAt path body') := by
  induction outer generalizing g with
  | nil =>
    obtain rfl := Option.some.inj hAr
    rfl
  | cons n outer ih =>
    rcases bodyAt?_cons_iff.mp hAr with ⟨node, inner, hOp, hIn, hRest⟩
    rw [cons_append, bodyAt?_replaceAt_cons, hOp]
    simp only [Option.bind_some, hIn]
    exact ih hRest

theorem bodyAt?_replaceAt (hB : g.bodyAt? path = some body) (body' : Graph K) :
    (g.replaceAt path body').bodyAt? path = some body' := by
  have hHere := bodyAt?_replaceAt_above hB [] body'
  rwa [append_nil] at hHere

theorem bodyAt?_replaceAt_apart {other : List Nat} (hBelow : ¬ path <+: other)
    (hAbove : ¬ other <+: path) (body' : Graph K) :
    (g.replaceAt path body').bodyAt? other = g.bodyAt? other := by
  induction path generalizing g other with
  | nil => exact absurd nil_prefix hBelow
  | cons n path ih =>
    cases other with
    | nil => exact absurd nil_prefix hAbove
    | cons m other =>
      by_cases hSame : m = n
      · subst hSame
        rw [bodyAt?_replaceAt_cons, bodyAt?_cons]
        have hRest := @ih
        congr 1
        funext inner
        refine hRest (fun hPre => hBelow ?_) (fun hPre => hAbove ?_)
        · exact cons_prefix_cons.mpr ⟨rfl, hPre⟩
        · exact cons_prefix_cons.mpr ⟨rfl, hPre⟩
      · rw [bodyAt?_cons, bodyAt?_cons, op?_replaceAt]
        cases hOp : g.op? m with
        | none => rfl
        | some node =>
          have hId : node.id = m := (op?_eq_some hOp).2
          simp [withBodyAt, hId, hSame]

theorem exists_bodyAt?_replaceAt {other : List Nat} {around : Graph K}
    (hB : g.bodyAt? path = some body) (hAr : g.bodyAt? other = some around)
    (hLen : other.length ≤ path.length) (body' : Graph K) :
    ∃ around', (g.replaceAt path body').bodyAt? other = some around' := by
  by_cases hAbove : other <+: path
  · rcases hAbove with ⟨rest, rfl⟩
    exact ⟨_, bodyAt?_replaceAt_above hAr rest body'⟩
  · by_cases hBelow : path <+: other
    · obtain rfl := hBelow.eq_of_length_le hLen
      exact ⟨_, bodyAt?_replaceAt hB body'⟩
    · exact ⟨around, by rwa [bodyAt?_replaceAt_apart hBelow hAbove]⟩

---- All Nested Graphs ----

theorem walk_eq (g : Graph K) : g.walk = ([], g) :: g.opIds.flatMap (fun n =>
      ((valueOf? (g.bodyValues walk) n).getD []).map (fun entry => (n :: entry.1, entry.2))) :=
  fold_eq _ g

theorem Intact.mem_walk_iff (hI : g.Intact) :
    (path, body) ∈ g.walk ↔ g.bodyAt? path = some body := by
  induction path generalizing g with
  | nil =>
    rw [walk_eq, show g.bodyAt? [] = some g from rfl]
    simp [eq_comm]
  | cons n path ih =>
    have hS := hI.sound
    rw [walk_eq, bodyAt?_cons_iff]
    simp only [mem_cons, Prod.mk.injEq, reduceCtorEq, false_and, false_or, mem_flatMap,
      mem_map, List.cons.injEq]
    constructor
    · rintro ⟨m, hM, ⟨path', body'⟩, hThere, ⟨rfl, rfl⟩, rfl⟩
      rcases mem_opIds_iff.mp hM with ⟨node, hN, rfl⟩
      rw [hS.valueOf?_bodies walk hN] at hThere
      cases hIn : node.body with
      | none => simp [hIn] at hThere
      | some inner =>
        rw [hIn] at hThere
        exact ⟨node, inner, hS.op?_id hN, hIn, (ih (hI.body hN hIn)).mp hThere⟩
    · rintro ⟨node, inner, hOp, hIn, hRest⟩
      rcases hS.op?_iff.mp hOp with ⟨hN, rfl⟩
      refine ⟨node.id, mem_opIds_of_mem hN, (path, body), ?_, ⟨rfl, rfl⟩, rfl⟩
      rw [hS.valueOf?_bodies walk hN, hIn]
      exact (ih (hI.body hN hIn)).mpr hRest

/- Levels that stand in a graph, none of them inside a later one. -/
structure Ladder (g : Graph K) (paths : List (List Nat)) : Prop where
  places : ∀ path ∈ paths, ∃ base, g.bodyAt? path = some base
  lengths : paths.Pairwise (fun path other => other.length ≤ path.length)

end Graph

namespace Search

variable {K : Type} {g : Graph K}

theorem mem_levelPaths (hI : g.Intact) {body : Graph K} (hB : g.bodyAt? path = some body) :
    path ∈ levelPaths true g :=
  mem_mergeSort.mpr (mem_map.mpr ⟨(path, body), hI.mem_walk_iff.mpr hB, rfl⟩)

theorem ladder_levelPaths (hI : g.Intact) (recurse : Bool) : g.Ladder (levelPaths recurse g) := by
  cases recurse with
  | false => exact ⟨fun path hM => ⟨g, mem_singleton.mp hM ▸ rfl⟩, pairwise_singleton _ _⟩
  | true =>
    have hLe : ∀ a b : List Nat, decide (b.length ≤ a.length) = true ↔
      OrderDual.toDual a.length ≤ OrderDual.toDual b.length := fun _ _ => decide_eq_true_iff
    refine ⟨fun path hM => ?_, pairwise_mergeSort_of_key hLe _⟩
    rcases mem_map.mp (mem_mergeSort.mp hM) with ⟨⟨_, body⟩, hWalk, rfl⟩
    exact ⟨body, hI.mem_walk_iff.mp hWalk⟩

end Search

end CircuitGraph
