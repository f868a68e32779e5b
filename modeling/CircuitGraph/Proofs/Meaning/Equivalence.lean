import CircuitGraph.Proofs.Graph.Mirror
import CircuitGraph.Proofs.Meaning.Basic

/-
  Graphs that compute the same.

  Graphs are equivalent under an interpretation if they have
  the same boundary and compute the same from values of the
  right types.
-/

---- Equivalence ----

namespace CircuitGraph

namespace Graph

variable {K V : Type} {I : Interpretation V}

def Equivalent (I : Interpretation V) (g g' : Graph K) : Prop :=
  g'.signature = g.signature ∧ ∀ xs, I.Typed g.inputs xs → g'.meaning I xs = g.meaning I xs

namespace Equivalent

variable {g g' g'' : Graph K}

theorem refl (g : Graph K) : g.Equivalent I g :=
  ⟨rfl, fun _ _ => rfl⟩

theorem trans (hL : g.Equivalent I g') (hR : g'.Equivalent I g'') : g.Equivalent I g'' := by
  refine ⟨hR.1.trans hL.1, fun xs hTyped => ?_⟩
  have hInputs : g'.inputs = g.inputs := congrArg Signature.inputs hL.1
  rw [hR.2 xs (hInputs ▸ hTyped), hL.2 xs hTyped]

end Equivalent

theorem Alike.meaning {g g' : Graph K} (hA : g.Alike g') : g'.meaning I = g.meaning I :=
  hA.congr (Graph.meaning I) (fun g => by rw [meaning_eq_level, meaning_eq_level]; rfl)

theorem Alike.equivalent {g g' : Graph K} (hA : g.Alike g') : g.Equivalent I g' :=
  ⟨hA.signature, fun xs _ => by rw [hA.meaning]⟩

end Graph

---- Equivalent Nested Graphs ----

variable {K V : Type} {I : Interpretation V} {related : Graph K → Graph K → Prop}

theorem Node.Mirrors.meaning {node node' : Node (Graph K)} (hMir : node.Mirrors related node')
    (hRel : ∀ b b', related b b' → b'.signature = b.signature)
    (hB : ∀ b b', node.body = some b → related b b' → b.Equivalent I b') {xs : List V}
    (hTyped : I.Typed node.signature.inputs xs) :
    node'.meaning I (node'.body.map (Graph.meaning I)) xs =
      node.meaning I (node.body.map (Graph.meaning I)) xs := by
  have hSame := hMir.body
  have hBd := hMir.boundary? hRel
  cases hOld : node.body with
  | none =>
    rw [hOld] at hSame
    have hNew : node'.body = none := by
      cases hR : node'.body with
      | none => rfl
      | some b' =>
        rw [hR] at hSame
        cases hSame
    simp only [Node.meaning, hBd, hMir.kind, hMir.params, hNew]
  | some b =>
    cases hNew : node'.body with
    | none =>
      rw [hOld, hNew] at hSame
      cases hSame
    | some b' =>
      rw [hOld, hNew] at hSame
      cases hSame with
      | some hBoth =>
        have hEquivalent := hB b b' hOld hBoth
        have hOldBoundary : node.boundary? = some b.signature := by simp [Node.boundary?, hOld]
        simp only [Node.meaning, hBd, hOldBoundary, hMir.kind, hMir.params, Option.map_some]
        cases hKind : node.kind with
        | region =>
          simp only [Node.signature, hKind, hOldBoundary] at hTyped
          exact hEquivalent.2 xs hTyped
        | conditional =>
          simp only [Node.signature, hKind, hOldBoundary] at hTyped
          cases hTyped with
          | cons hControl hRest =>
            refine I.conditional_congr b.signature _ _ _ _ ?_ hRest
            exact fun ys hYs => hEquivalent.2 ys hYs
        | _ => rfl

namespace Graph

/- A level whose nested graphs are equivalent to those of another one computes the same. -/
theorem Mirrors.equivalent {g g' : Graph K} (hMir : g.Mirrors related g')
    (hRel : ∀ b b', related b b' → b'.signature = b.signature) (hI : g.Intact)
    (hF : g.WellFormed)
    (hBodies : ∀ node ∈ g.ops, ∀ b b', node.body = some b → related b b' → b.Equivalent I b') :
    g.Equivalent I g' := by
  have hS := hI.sound
  have hS' := hMir.sound hRel hS
  have hInputs : ∀ env : Nat → List V, g'.inputValues env = g.inputValues env := by
    intro env
    funext n
    unfold inputValues
    rw [hMir.signatureOf hRel hS.unique]
    simp only [hMir.source?]
  refine ⟨hMir.signature, fun xs hTyped => ?_⟩
  rcases hS.exists_solves hF.acyclic I xs with ⟨env, hSol⟩
  -- The solution of the original is one of the mirror.
  have hSol' : g'.Solves I xs env := by
    refine ⟨hSol.inputs, fun node' hN' => ?_⟩
    rcases hMir.exists_original hN' with ⟨node, hN, hSame⟩
    rw [hSame.id, hInputs, hSol.nodes node hN]
    refine (hSame.meaning hRel (hBodies node hN) ?_).symm
    rw [← hS.signatureOf_id hN]
    exact (hI.solves_values hF hTyped hSol node.id).1
  rw [hS.meaning_eq hF.acyclic hSol, hS'.meaning_eq (hMir.acyclic hF.acyclic) hSol', hInputs]

theorem Intact.equivalent_copy {g : Graph K} (hI : g.Intact) (hF : g.WellFormed) :
    g.Equivalent I g.copy := by
  induction g using nested_induction with
  | step g ih =>
    refine hI.sound.mirrors_copy.equivalent related_copy_signature hI hF ?_
    rintro node hN b b' hB rfl
    exact ih node hN b hB (hI.body hN hB) (hF.body hN hB)

---- Nested Graphs by Path ----

theorem Intact.equivalent_replaceAt {g body body' : Graph K} {path : List Nat} (hI : g.Intact)
    (hF : g.WellFormed) (hB : g.bodyAt? path = some body)
    (hEquivalent : body.Equivalent I body') : g.Equivalent I (g.replaceAt path body') := by
  refine replaceAt_induction (P := fun g => g.Intact ∧ g.WellFormed) (R := Equivalent I)
    (fun hBoth => hBoth.1.sound)
    (fun hBoth => fun hN hB => ⟨hBoth.1.body hN hB, hBoth.2.body hN hB⟩)
    (fun _ => .refl _) ?_ hEquivalent.1 hEquivalent ⟨hI, hF⟩ hB
  exact fun hBoth hMir hRel => hMir.equivalent hRel hBoth.1 hBoth.2

end Graph

end CircuitGraph
