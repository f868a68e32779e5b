import CircuitGraph.Proofs.Meaning.Basic

/-
  Classical values.

  Qubits, bits and control values are all true or false.  The
  gates that permute basis states act on them, and so do
  measurements, resets and readings of bits; a condition does
  what its body does if its control value is true, and nothing
  otherwise.
-/

namespace CircuitGraph

namespace Interpretation

/- What operations do with true and false; other gates are left out of account. -/
def classicalGate (kind : Kind) (xs : List Bool) : List Bool :=
  match kind, xs with
  | .x, [a] => [!a]
  | .cx, [a, b] => [a, a ^^ b]
  | .ccx, [a, b, c] => [a, b, (a && b) ^^ c]
  | .swap, [a, b] => [b, a]
  | .measure, [q, _] => [q, q]
  | .readBit, [b] => [b, b]
  | kind, _ => (kind.signature?.getD ⟨[], []⟩).outputs.map (fun _ => false)

def classicalConditional (sig : Signature) (control : Bool) (body : List Bool → List Bool)
    (xs : List Bool) : List Bool :=
  if control then body xs
  else if sig.inputs = sig.outputs then xs
  else sig.outputs.map (fun _ => false)

theorem length_classicalGate {kind : Kind} {sig : Signature}
    (hSig : kind.signature? = some sig) (xs : List Bool) :
    (classicalGate kind xs).length = sig.outputs.length := by
  unfold classicalGate
  split <;> first
    | (cases hSig; rfl)
    | simp [hSig]

theorem forall₂_true_iff {types : List WireType} {xs : List Bool} :
    List.Forall₂ (fun _ _ => True) types xs ↔ types.length = xs.length := by
  simp [List.forall₂_iff_zip]

def classical : Interpretation Bool where
  carries _ _ := True
  gate kind _ xs := classicalGate kind xs
  conditional := classicalConditional
  gate_typed kind sig _ xs hSig _ _ :=
    forall₂_true_iff.mpr (length_classicalGate hSig xs).symm
  conditional_typed sig control body xs _ hB hInputs := by
    unfold classicalConditional
    split
    · exact hB xs hInputs
    · split
      · next hSame => exact hSame ▸ hInputs
      · exact forall₂_true_iff.mpr (by simp)
  conditional_congr sig control body body' xs hB hInputs := by
    unfold classicalConditional
    rw [hB xs hInputs]

end Interpretation

end CircuitGraph
