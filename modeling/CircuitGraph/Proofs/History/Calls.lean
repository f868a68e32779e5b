import CircuitGraph.Proofs.Reachable

/-
  Histories of calls.

  A history is a list of calls with any arguments.  A call
  that fails leaves the graph as it was when the fault arose,
  and the history goes on from there.
-/

---- Calls ----

namespace CircuitGraph

/-
  A call on a graph.  A container is added with a body of its
  own, or around it is the graph that is its body, of which
  only the boundary matters.
-/
inductive GraphCall (K : Type) where
  | addNode (kind : Kind) (params : List Value) (body : Option (Graph K))
  | addAround (kind : Kind) (params : List Value) (boundary : Signature)
  | connect (src dst : PinName)
  | disconnect (src dst : PinName)
  | removeNode (id : Value) (cascade : Bool)
  | copy
  | rank
  | plan (rs : RuleSet K) (m : Match)
  | commit (rs : RuleSet K) (p : Plan)

variable {K : Type} [Scalar K]

namespace GraphCall

def run : GraphCall K → Edit K (Option Nat)
  | addNode kind params body => some <$> Graph.addNode kind params body
  | addAround kind params boundary =>
    some <$> Graph.addNodeWith kind (Value.toParams params) none (some boundary)
  | connect src dst => (fun _ => none) <$> Graph.connect src dst
  | disconnect src dst => (fun _ => none) <$> Graph.disconnect src dst
  | removeNode id cascade => (fun _ => none) <$> Graph.removeNode id cascade
  | copy => do
    modify Graph.copy
    return none
  | rank => (fun _ => none) <$> Graph.topologicalRanks
  | plan rs m => (fun _ => none) <$> rs.plan m
  | commit rs p => (fun _ => none) <$> rs.commit p

def issued? (c : GraphCall K) (g : Graph K) : Option Nat :=
  match (outcome c.run g).1 with
  | .ok id => id
  | .error _ => none

end GraphCall

namespace Graph

def after (g : Graph K) : List (GraphCall K) → Graph K
  | [] => g
  | c :: calls => after (outcome c.run g).2 calls

def issuedBy (g : Graph K) : List (GraphCall K) → List Nat
  | [] => []
  | c :: calls => (c.issued? g).toList ++ issuedBy (outcome c.run g).2 calls

theorem after_append (g : Graph K) (earlier later : List (GraphCall K)) :
    g.after (earlier ++ later) = (g.after earlier).after later := by
  induction earlier generalizing g with
  | nil => rfl
  | cons c earlier ih => exact ih _

end Graph

---- What a GraphCall Does ----

variable {g g₀ : Graph K}

theorem Keeps.map {α β ε σ : Type} {P : σ → Prop} {e : ExceptT ε (StateM σ) α} (hKeeps : Keeps P e)
    (h : α → β) : Keeps P (h <$> e) :=
  Ends.keeps (fun _ hState =>
    ⟨fun _ _ hY => by
        rcases yields_map_iff.mp hY with ⟨_, hFirst, -⟩
        exact hKeeps.of_yields hFirst hState,
      fun _ _ hFails => (Ends.of_keeps hKeeps hState).2 _ _ (fails_map_iff.mp hFails)⟩)

theorem outcome_map_snd {α β ε σ : Type} (h : α → β) (e : ExceptT ε (StateM σ) α) (s : σ) :
    (outcome (h <$> e) s).2 = (outcome e s).2 := by
  rcases yields_or_fails e s with ⟨a, s', hY⟩ | ⟨fault, s', hFails⟩
  · rw [yields_map_iff.mpr ⟨a, hY, rfl⟩, hY]
  · rw [fails_map_iff.mpr hFails, hFails]

theorem GraphCall.keeps_changed {c : GraphCall K} (hCopy : c ≠ .copy) :
    Keeps (Graph.Changed (fun _ => True) g₀) c.run := by
  cases c with
  | addNode kind params body =>
    exact (Graph.keeps_addNodeWith kind _ (.inr rfl) (fun _ _ => trivial)).map _
  | addAround kind params boundary =>
    exact (Graph.keeps_addNodeWith kind _ (.inl rfl) (fun _ _ => trivial)).map _
  | connect src dst => exact (Graph.keeps_connect src dst).map _
  | disconnect src dst => exact (Graph.keeps_disconnect src dst).map _
  | removeNode id cascade => exact (Graph.keeps_removeNode id cascade).map _
  | copy => exact absurd rfl hCopy
  | rank => exact Keeps.map (fun _ hChg => hChg.step (.rerank _)) _
  | plan rs m =>
    exact Keeps.map (fun g hChg => hChg.of_reranked (Reads.plan rs m g g .refl)) _
  | commit rs p => exact (RuleSet.keeps_commit (fun _ _ _ _ _ _ => trivial) p).map _

namespace Graph

theorem outcome_copy (g : Graph K) : outcome GraphCall.copy.run g = (.ok none, g.copy) :=
  rfl

/- The id that is given out is the next one, and then the next one is higher. -/
omit [Scalar K] in
theorem nextId_of_addNodeWith {kind : Kind} {params : Except Fault (List Param)}
    {body : Option (Graph K)} {enclosing : Option Signature} {n : Nat} {g' : Graph K}
    (hY : Yields (addNodeWith kind params body enclosing) g n g') :
    n = g.nextId ∧ g'.nextId = g.nextId + 1 := by
  rcases (ends_addNodeWith ..).1 _ _ hY with ⟨rfl, -, ps, -, -, rfl⟩
  exact ⟨rfl, rfl⟩

theorem issued?_eq_some {c : GraphCall K} {n : Nat} (hIssued : c.issued? g = some n) :
    n = g.nextId ∧ (outcome c.run g).2.nextId = g.nextId + 1 := by
  have hY : Yields c.run g (some n) (outcome c.run g).2 := by
    unfold GraphCall.issued? at hIssued
    split at hIssued
    · rename_i id hOutcome
      exact Prod.ext (hIssued ▸ hOutcome) rfl
    · cases hIssued
  cases c with
  | addNode kind params body =>
    rcases yields_map_iff.mp hY with ⟨m, hAdd, hEq⟩
    obtain rfl := Option.some.inj hEq
    exact nextId_of_addNodeWith hAdd
  | addAround kind params boundary =>
    rcases yields_map_iff.mp hY with ⟨m, hAdd, hEq⟩
    obtain rfl := Option.some.inj hEq
    exact nextId_of_addNodeWith hAdd
  | copy =>
    have hNone := congrArg Prod.fst hY
    rw [outcome_copy] at hNone
    cases Except.ok.inj hNone
  | _ =>
    rcases yields_map_iff.mp hY with ⟨_, -, hEq⟩
    cases hEq

theorem nextId_le_of_changes {P : Graph K → Prop} {g' : Graph K}
    (hChanges : Relation.ReflTransGen (Change P) g g') : g.nextId ≤ g'.nextId := by
  induction hChanges with
  | refl => exact Nat.le_refl _
  | tail _ hChange ih => exact Nat.le_trans ih (nextId_le_of_change hChange)

theorem Sound.call (hS : g.Sound) (c : GraphCall K) :
    (outcome c.run g).2.Sound ∧ g.nextId ≤ (outcome c.run g).2.nextId := by
  by_cases hCopy : c = .copy
  · subst hCopy
    rw [outcome_copy]
    exact ⟨hS.mirrors_copy.sound related_copy_signature hS, hS.mirrors_copy.next⟩
  · have hChg := GraphCall.keeps_changed hCopy g hS.changed
    exact ⟨hChg.sound, nextId_le_of_changes hChg.changes⟩

theorem Sound.after (hS : g.Sound) (calls : List (GraphCall K)) :
    (g.after calls).Sound ∧ g.nextId ≤ (g.after calls).nextId := by
  induction calls generalizing g with
  | nil => exact ⟨hS, Nat.le_refl _⟩
  | cons c calls ih =>
    have hFirst := hS.call c
    have hRest := ih hFirst.1
    exact ⟨hRest.1, Nat.le_trans hFirst.2 hRest.2⟩

theorem sound_empty (inputs outputs : List WireType) :
    (Graph.empty inputs outputs : Graph K).Sound :=
  (Reachable.empty inputs outputs).intact.sound

theorem Sound.issuedBy (hS : g.Sound) (calls : List (GraphCall K)) :
    (∀ n ∈ g.issuedBy calls, g.nextId ≤ n) ∧ (g.issuedBy calls).Pairwise (· < ·) := by
  induction calls generalizing g with
  | nil => exact ⟨by simp [Graph.issuedBy], .nil⟩
  | cons c calls ih =>
    have hFirst := hS.call c
    rcases ih hFirst.1 with ⟨hLater, hRising⟩
    simp only [Graph.issuedBy]
    cases hIssued : c.issued? g with
    | none => exact ⟨fun n hM => Nat.le_trans hFirst.2 (hLater n hM), hRising⟩
    | some m =>
      obtain ⟨rfl, hNext⟩ := issued?_eq_some hIssued
      refine ⟨fun n hM => ?_, List.pairwise_cons.mpr ⟨fun n hM => ?_, hRising⟩⟩
      · rcases List.mem_cons.mp hM with rfl | hM
        · exact Nat.le_refl _
        · exact Nat.le_trans hFirst.2 (hLater n hM)
      · have hLe := hLater n hM
        rw [hNext] at hLe
        exact hLe

end Graph

end CircuitGraph
