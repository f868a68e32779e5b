import Mathlib
import CircuitGraph.Decimal.Binary64

/-
  Whole numbers that are too large for a double.

  Sixty-four bits stand for a finite double as long as their
  exponent is not the largest one.
-/

---- Finite Doubles ----

namespace CircuitGraph

namespace Binary64

open Float.Model (Format)
open Float.Model.UnpackedFloat

section

variable {b : BitVec Format.binary64.numBits} (hExponent : (unpackExponent b).toNat < 2047)

include hExponent

theorem unpackExponent_ne : unpackExponent b ≠ -1#_ := by
  intro hEq
  rw [hEq] at hExponent
  simp at hExponent

theorem isFinite_unpack : (unpack Format.binary64 b).isFinite = true := by
  unfold unpack
  simp only [unpackExponent_ne hExponent, if_false]
  split
  · split <;> rfl
  · rfl

theorem exponent_pack :
    (unpackExponent (pack Format.binary64 (unpack Format.binary64 b))).toNat < 2047 := by
  unfold unpack
  simp only [unpackExponent_ne hExponent, if_false]
  split
  · rename_i hZero
    split
    · simp [pack, packedZero]
    · simp only [pack, hZero]
      split
      · rename_i hLarge
        simp [Format.exponentBias] at hLarge
      · split <;> simp [Format.exponentBias]
  · simp only [pack]
    split
    · rename_i hLarge
      simp only [Nat.reducePow, Format.exponentBias, Nat.add_one_sub_one, Nat.cast_ofNat,
        Int.reduceAdd, Nat.reduceLeDiff] at hLarge
      omega
    · split
      · simp only [Format.exponentBias, Nat.add_one_sub_one, Nat.reducePow, Nat.cast_ofNat,
          Int.reduceAdd, unpackExponent_packComponents, BitVec.toNat_ofNat]
        omega
      · simp

end

theorem unpackExponent_lt {b : UInt64} (hExponent : b.toNat / 2 ^ 52 % 2 ^ 11 < 2047) :
    (@unpackExponent Format.binary64 b.toBitVec).toNat < 2047 := by
  simp only [unpackExponent, Nat.add_one_sub_one, BitVec.cast_eq, BitVec.extractLsb_toNat,
    UInt64.toNat_toBitVec, Nat.shiftRight_eq_div_pow]
  omega

theorem isFinite_ofBits {n : Nat} (hExponent : n / 2 ^ 52 % 2 ^ 11 < 2047) :
    (Float.ofBits (UInt64.ofNat n)).isFinite = true := by
  refine isFinite_unpack (exponent_pack (unpackExponent_lt ?_))
  rw [UInt64.toNat_ofNat']
  omega

---- Rounding ----

theorem roundQuotient_le {num den q : Nat} (hLt : num < q * den) : roundQuotient num den ≤ q := by
  have hQuotient : num / den < q := Nat.div_lt_of_lt_mul (by rwa [Nat.mul_comm])
  unfold roundQuotient
  dsimp only
  split_ifs <;> omega

theorem roundQuotient_lt {num den q : Nat} (hLt : 2 * num + den < 2 * (q * den)) :
    roundQuotient num den < q := by
  have hPos : 0 < den := by
    rcases Nat.eq_zero_or_pos den with rfl | hPos
    · simp at hLt
    · exact hPos
  have hSplit := Nat.div_add_mod num den
  have hQuotient : num / den < q := Nat.div_lt_of_lt_mul (by rw [Nat.mul_comm]; omega)
  by_cases hNext : num / den + 1 < q
  · have hSucc : num < (num / den + 1) * den := by
      rw [Nat.mul_comm]
      exact Nat.lt_mul_div_succ num hPos
    exact Nat.lt_of_le_of_lt (roundQuotient_le hSucc) hNext
  · obtain rfl : num / den + 1 = q := by omega
    have hHalf : 2 * (num % den) < den := by
      rw [Nat.add_mul, Nat.one_mul, Nat.mul_comm (num / den)] at hLt
      omega
    unfold roundQuotient
    dsimp only
    rw [if_pos hHalf]
    exact Nat.lt_succ_self _

theorem nearestBits_whole {n : Nat} (hZero : n ≠ 0) : nearestBits n 1 =
      min ((n.log2 + 1022) * 2 ^ 52 + roundScaled n 1 (n.log2 - 52)) (2047 * 2 ^ 52) := by
  have hBelow : belowPower n 1 n.log2 = false := by
    simp [belowPower, Nat.log2_self_le hZero]
  have hLeading : (n.log2 : Int) - ((Nat.log2 1 : Nat) : Int) = n.log2 := by
    rw [show Nat.log2 1 = 0 from rfl]
    omega
  have hExponent : max ((n.log2 : Int) - 52) leastExponent = n.log2 - 52 := by
    unfold leastExponent
    omega
  have hShift : ((n.log2 : Int) - 52 - leastExponent).toNat = n.log2 + 1022 := by
    unfold leastExponent
    omega
  unfold nearestBits
  simp only [if_neg hZero, hLeading, hBelow, Bool.false_eq_true, if_false, hExponent, hShift]
  rfl

theorem roundScaled_le {n k : Nat} (hLt : n < 2 ^ (k + 1)) : roundScaled n 1 (k - 52) ≤ 2 ^ 53 := by
  unfold roundScaled
  split
  · refine roundQuotient_le ?_
    change n < 2 ^ 53 * (1 * 2 ^ ((k : Int) - 52).toNat)
    rw [Nat.one_mul, ← Nat.pow_add, show 53 + ((k : Int) - 52).toNat = k + 1 by omega]
    exact hLt
  · refine roundQuotient_le ?_
    have hScale := Nat.mul_lt_mul_of_pos_right hLt (Nat.two_pow_pos (52 - k))
    rw [← Nat.pow_add, show k + 1 + (52 - k) = 53 by omega] at hScale
    rw [Nat.mul_one, show (-((k : Int) - 52)).toNat = 52 - k by omega]
    exact hScale

theorem nearestBits_lt {n : Nat} (hLt : n < 2 ^ 1024 - 2 ^ 970) :
    nearestBits n 1 < 2047 * 2 ^ 52 := by
  rcases Nat.eq_zero_or_pos n with rfl | hPos
  · simp [nearestBits]
  have hZero : n ≠ 0 := Nat.ne_of_gt hPos
  have hTop : n.log2 < 1024 := (Nat.log2_lt hZero).mpr (by omega)
  rw [nearestBits_whole hZero]
  rcases Nat.lt_or_ge n.log2 1023 with hFar | hNear
  · have hRound := roundScaled_le (Nat.lt_log2_self (n := n))
    omega
  · -- The largest exponent leaves no room for a significand that rounds up.
    have hRound : roundScaled n 1 ((1023 : Nat) - 52) < 2 ^ 53 := by
      rw [roundScaled, if_pos (by omega), show (((1023 : Nat) : Int) - 52).toNat = 971 by omega]
      refine roundQuotient_lt ?_
      simp only [Nat.pow_eq]
      omega
    rw [show n.log2 = 1023 by omega]
    omega

theorem le_natAbs_of_ofInt?_eq_none {i : Int} (hNone : ofInt? i = none) :
    2 ^ 1024 - 2 ^ 970 ≤ i.natAbs := by
  by_contra hSmall
  have hBits := nearestBits_lt (Nat.lt_of_not_le hSmall)
  have hFinite : (nearest (i < 0) i.natAbs 1).isFinite = true := by
    refine isFinite_ofBits ?_
    split
    · change (2 ^ 63 + nearestBits i.natAbs 1) / 2 ^ 52 % 2 ^ 11 < 2047
      omega
    · omega
  simp [ofInt?, hFinite] at hNone

end Binary64

end CircuitGraph
