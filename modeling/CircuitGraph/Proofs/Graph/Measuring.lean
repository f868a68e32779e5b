import CircuitGraph.Cost
import CircuitGraph.Graph.Fingerprint
import CircuitGraph.Proofs.Graph.WellFormed

/-
  Measures of well-formed graphs.

  A well-formed graph has a depth, a fingerprint and a cost:
  its levels have an order, and none of them contains itself.
-/

---- Values of Levels ----

namespace CircuitGraph

open List

theorem exists_foldlM_eq_ok {α β ε : Type} {f : β → α → Except ε β} {xs : List α}
    (hEach : ∀ b, ∀ x ∈ xs, ∃ b', f b x = .ok b') (b : β) : ∃ b', xs.foldlM f b = .ok b' := by
  induction xs generalizing b with
  | nil => exact ⟨b, rfl⟩
  | cons x xs ih =>
    rcases hEach b x mem_cons_self with ⟨b₁, hFirst⟩
    rcases ih (fun b y hM => hEach b y (mem_cons_of_mem _ hM)) b₁ with ⟨b₂, hRest⟩
    exact ⟨b₂, bind_eq_ok_iff.mpr ⟨b₁, hFirst, hRest⟩⟩

namespace Graph

variable {K : Type} {α : Type} {g : Graph K}

theorem mem_bodies_iff {n : Nat} {body : Graph K} :
    (n, body) ∈ g.bodies ↔ ∃ node ∈ g.ops, node.id = n ∧ node.body = some body := by
  simp [bodies, and_comm]

theorem WellFormed.enclosed_eq_nil (hF : g.WellFormed) : g.enclosed = [] := by
  simp only [enclosed, map_eq_nil_iff, filter_eq_nil_iff]
  intro node hN
  simp [hF.owned hN]

/- What holds of a level whose nested values are right holds of the whole graph. -/
theorem Intact.foldWith_induction {motive : Graph K → α → Prop} {endless : α}
    {step : Graph K → List (Nat × α) → α}
    (hStep : ∀ (g : Graph K) (values : List (Nat × α)), g.Sound → g.WellFormed →
      (∀ node ∈ g.ops, ∀ body, node.body = some body →
        ∃ a, valueOf? values node.id = some a ∧ motive body a) →
      (∀ entry ∈ values, ∃ body, motive body entry.2) →
      motive g (step g values))
    (hI : g.Intact)
    (hF : g.WellFormed) : motive g (g.foldWith endless step) := by
  induction hF with
  | intro g hCom hAcy hOwned hBodies ih =>
    have hHere : g.WellFormed := .intro g hCom hAcy hOwned hBodies
    rw [foldWith_eq, nestedValues, hHere.enclosed_eq_nil, map_nil, append_nil]
    refine hStep g _ hI.sound hHere (fun node hN body hB => ?_) (fun entry hM => ?_)
    · refine ⟨_, ?_, ih node hN body hB (hI.body hN hB)⟩
      rw [hI.sound.valueOf?_bodies _ hN, hB, Option.map_some]
    · rcases mem_map.mp hM with ⟨⟨n, body⟩, hThere, rfl⟩
      rcases mem_bodies_iff.mp hThere with ⟨node, hN, -, hB⟩
      exact ⟨body, ih node hN body hB (hI.body hN hB)⟩

theorem Intact.exists_foldWith {endless : Except Fault α}
    {step : Graph K → List (Nat × Except Fault α) → Except Fault α}
    (hStep : ∀ (g : Graph K) (values : List (Nat × Except Fault α)), g.Sound → g.WellFormed →
      (∀ entry ∈ values, ∃ a, entry.2 = .ok a) → ∃ a, step g values = .ok a)
    (hI : g.Intact)
    (hF : g.WellFormed) : ∃ a, g.foldWith endless step = .ok a :=
  hI.foldWith_induction (motive := fun _ value => ∃ a, value = .ok a)
    (fun g values hS hF _ hValues => hStep g values hS hF
      (fun entry hM => (hValues entry hM).elim fun _ hValue => hValue)) hF

theorem exists_of_valueOf? {values : List (Nat × Except Fault α)}
    (hValues : ∀ entry ∈ values, ∃ a, entry.2 = .ok a) {n : Nat} {value : Except Fault α}
    (hValue : valueOf? values n = some value) : ∃ a, value = .ok a := by
  rcases Option.map_eq_some_iff.mp hValue with ⟨entry, hFnd, rfl⟩
  exact hValues entry (mem_of_find?_eq_some hFnd)

---- Depths and Fingerprints ----

theorem exists_nodeWeight {values : List (Nat × Except Fault Nat)}
    (hValues : ∀ entry ∈ values, ∃ a, entry.2 = .ok a) (n : Nat) :
    ∃ w, g.nodeWeight values n = .ok w := by
  unfold nodeWeight
  split
  · exact ⟨0, rfl⟩
  · split
    · exact ⟨1, rfl⟩
    · cases hValue : valueOf? values n with
      | none => exact ⟨0, rfl⟩
      | some value => exact exists_of_valueOf? hValues hValue

theorem Intact.exists_depth (hI : g.Intact) (hF : g.WellFormed) : ∃ d, g.depth = .ok d := by
  refine hI.exists_foldWith (fun g values hS hF hValues => ?_) hF
  rcases hS.exists_topologicalOrder hF.acyclic with ⟨order, hOrder⟩
  have hDistances : ∃ distances, order.foldlM (fun (done : List (Nat × Nat)) n => do
      let weight ← g.nodeWeight values n
      let before := greatest ((g.predecessors n).filterMap (valueOf? done))
      return (n, before + weight) :: done) [] = .ok distances := by
    refine exists_foldlM_eq_ok (fun done n _ => ?_) []
    rcases exists_nodeWeight (g := g) hValues n with ⟨w, hW⟩
    exact ⟨_, bind_eq_ok_iff.mpr ⟨w, hW, rfl⟩⟩
  rcases hDistances with ⟨distances, hDistances⟩
  exact ⟨_, bind_eq_ok_iff.mpr ⟨order, hOrder, bind_eq_ok_iff.mpr ⟨distances, hDistances, rfl⟩⟩⟩

theorem exists_nodeMessage {values : List (Nat × Except Fault Digest)}
    (hValues : ∀ entry ∈ values, ∃ a, entry.2 = .ok a) (digests : List (Nat × Digest)) (n : Nat) :
    ∃ message, g.nodeMessage values digests n = .ok message := by
  unfold nodeMessage
  cases hValue : valueOf? values n with
  | none => exact ⟨_, rfl⟩
  | some value =>
    rcases exists_of_valueOf? hValues hValue with ⟨digest, rfl⟩
    exact ⟨_, rfl⟩

theorem Intact.exists_fingerprint (hI : g.Intact) (hF : g.WellFormed) :
    ∃ print, g.fingerprint = .ok print := by
  have hDigest : ∃ d, g.digestWith digest16 = .ok d := by
    refine hI.exists_foldWith (fun g values hS hF hValues => ?_) hF
    rcases hS.exists_topologicalOrder hF.acyclic with ⟨order, hOrder⟩
    have hAll : ∃ digests, g.nodeDigests digest16 values = .ok digests := by
      have hEach : ∃ digests, order.foldlM (fun digests n => do
          let message ← g.nodeMessage values digests n
          return (n, digest16 message) :: digests) [] = .ok digests := by
        refine exists_foldlM_eq_ok (fun digests n _ => ?_) []
        rcases exists_nodeMessage (g := g) hValues digests n with ⟨message, hMessage⟩
        exact ⟨_, bind_eq_ok_iff.mpr ⟨message, hMessage, rfl⟩⟩
      rcases hEach with ⟨digests, hDigests⟩
      exact ⟨digests, bind_eq_ok_iff.mpr ⟨order, hOrder, hDigests⟩⟩
    rcases hAll with ⟨digests, hDigests⟩
    exact ⟨_, bind_eq_ok_iff.mpr ⟨digests, hDigests, rfl⟩⟩
  rcases hDigest with ⟨d, hDigest⟩
  exact ⟨_, bind_eq_ok_iff.mpr ⟨d, hDigest, rfl⟩⟩

end Graph

---- Costs ----

namespace Cost

variable {K : Type} [Scalar K]

/- The costs of the library. -/
inductive Standard : Cost K → Prop where
  | gates : Standard gates
  | twoQubit : Standard twoQubit
  | weighted (label : String) (one two three : K) : Standard (weighted label one two three)
  | depth : Standard depth

theorem exists_sumOver {weight : Kind → List Param → Except Fault K}
    (hWeight : ∀ kind params, ∃ w, weight kind params = .ok w) {g : Graph K} (hI : g.Intact)
    (hF : g.WellFormed) :
    ∃ total, sumOver weight g = .ok total := by
  refine hI.exists_foldWith (fun g values _ _ hValues => ?_) hF
  refine exists_foldlM_eq_ok (fun total node _ => ?_) _
  have hPart : ∃ part,
      (Graph.valueOf? values node.id).getD (weight node.kind node.params) = .ok part := by
    cases hValue : Graph.valueOf? values node.id with
    | none => exact hWeight node.kind node.params
    | some value => exact Graph.exists_of_valueOf? hValues hValue
  rcases hPart with ⟨part, hPart⟩
  exact ⟨_, bind_eq_ok_iff.mpr ⟨part, hPart, rfl⟩⟩

theorem exists_kindWeight (one two three : K) (kind : Kind) :
    ∃ w, kindWeight (.ok one) (.ok two) (.ok three) kind = .ok w := by
  unfold kindWeight
  split
  · split <;> exact ⟨_, rfl⟩
  · exact ⟨_, rfl⟩

theorem Standard.exists_eval {cost : Cost K} (hStd : cost.Standard) {g : Graph K}
    (hI : g.Intact) (hF : g.WellFormed) : ∃ value, cost.eval g = .ok value := by
  cases hStd with
  | gates =>
    change ∃ value, sumOver (fun kind _ => .ok (unit kind.isGate)) g = .ok value
    exact exists_sumOver (fun _ _ => ⟨_, rfl⟩) hI hF
  | twoQubit =>
    change ∃ value, sumOver (fun kind _ => .ok (unit (2 ≤ kind.qubits))) g = .ok value
    exact exists_sumOver (fun _ _ => ⟨_, rfl⟩) hI hF
  | weighted label one two three =>
    exact exists_sumOver (fun kind _ => exists_kindWeight one two three kind) hI hF
  | depth =>
    rcases hI.exists_depth hF with ⟨d, hDepth⟩
    exact ⟨_, bind_eq_ok_iff.mpr ⟨d, hDepth, rfl⟩⟩

end Cost

end CircuitGraph
