import Mathlib
import CircuitGraph.Decimal.Layout

/-
  Different doubles are written differently.

  The text of a double can be read as a rational number, which
  lies between the ends of the double: seventeen digits always
  suffice for that.
-/

---- Ends of a Double ----

namespace CircuitGraph

open List

namespace Digits

variable {m m' : Nat} {e e' p : Int} {v : ℚ}

def value (d : Digits) : ℚ :=
  d.digits * 10 ^ d.exponent

theorem zpow_toNat (b : ℚ) (hBase : b ≠ 0) (k : Int) : b ^ k.toNat = b ^ k * b ^ (-k).toNat := by
  rw [← zpow_natCast, ← zpow_natCast, ← zpow_add₀ hBase]
  congr 1
  omega

theorem gridRatio_pos : 0 < (gridRatio m e p).2 := by
  simp only [gridRatio, Nat.pow_eq]
  positivity

theorem gridRatio_unit : (gridRatio m e p).1 = m * (gridRatio 1 e p).1 := by
  simp only [gridRatio]
  ring

theorem gridRatio_eq : ((gridRatio m e p).1 : ℚ) * 10 ^ p = m * 2 ^ e * (gridRatio m e p).2 := by
  have hTen := zpow_toNat 10 (by norm_num) p
  simp only [gridRatio, Nat.pow_eq, Nat.cast_mul, Nat.cast_pow, Nat.cast_ofNat,
    zpow_toNat 2 (by norm_num) e, hTen]
  ring

def lower (m : Nat) (e : Int) : Nat :=
  4 * m - if m = Nat.pow 2 52 ∧ Binary64.leastExponent < e then 1 else 2

def Rounds (m : Nat) (e : Int) (v : ℚ) : Prop :=
  if m % 2 = 0 then lower m e * 2 ^ e ≤ 4 * v ∧ 4 * v ≤ (4 * m + 2 : Nat) * 2 ^ e
  else lower m e * 2 ^ e < 4 * v ∧ 4 * v < (4 * m + 2 : Nat) * 2 ^ e

/- The significand and the exponent of a double. -/
structure Canonical (m : Nat) (e : Int) : Prop where
  small : m < 2 ^ 53
  least : Binary64.leastExponent ≤ e
  full : 2 ^ 52 ≤ m ∨ e = Binary64.leastExponent

theorem Rounds.weak (h : Rounds m e v) :
    (lower m e : ℚ) * 2 ^ e ≤ 4 * v ∧ 4 * v ≤ (4 * m + 2 : Nat) * 2 ^ e := by
  unfold Rounds at h
  split at h
  · exact h
  · exact ⟨h.1.le, h.2.le⟩

theorem Rounds.strict (h : Rounds m e v) (hOdd : m % 2 = 1) :
    (lower m e : ℚ) * 2 ^ e < 4 * v ∧ 4 * v < (4 * m + 2 : Nat) * 2 ^ e := by
  rwa [Rounds, if_neg (by omega)] at h

/- The next double begins where the one before ends, or later. -/
theorem Canonical.ends (h : Canonical m e) (h' : Canonical m' e')
    (hLess : e < e' ∨ e = e' ∧ m < m') : 4 * m + 2 < lower m' e' * 2 ^ (e' - e).toNat ∨
      4 * m + 2 = lower m' e' * 2 ^ (e' - e).toNat ∧ (m % 2 = 1 ∨ m' % 2 = 1) := by
  have hSmall := h.small
  have hFull := h.full
  have hFull' := h'.full
  have hLeast := h.least
  unfold lower
  simp only [Nat.pow_eq]
  rcases hLess with hLess | ⟨rfl, hLess⟩
  · obtain ⟨k, hK⟩ : ∃ k, (e' - e).toNat = k + 1 := ⟨(e' - e).toNat - 1, by omega⟩
    have hPow : 2 ≤ 2 ^ (e' - e).toNat := by
      rw [hK, pow_succ]
      exact Nat.le_mul_of_pos_left 2 (Nat.two_pow_pos k)
    generalize 2 ^ (e' - e).toNat = E at hPow
    split
    · rename_i hNarrow
      rcases Nat.lt_or_ge 2 E with hE | hE
      · left
        calc 4 * m + 2 < (4 * m' - 1) * 3 := by omega
          _ ≤ (4 * m' - 1) * E := Nat.mul_le_mul_left _ hE
      · obtain rfl : E = 2 := by omega
        omega
    · left
      calc 4 * m + 2 < (4 * m' - 2) * 2 := by omega
        _ ≤ (4 * m' - 2) * E := Nat.mul_le_mul_left _ hPow
  · rw [Int.sub_self]
    simp only [Int.toNat_zero, pow_zero, mul_one]
    split <;> omega

theorem Rounds.not_less (hCan : Canonical m e) (hCan' : Canonical m' e') (h : Rounds m e v)
    (h' : Rounds m' e' v) : ¬ (e < e' ∨ e = e' ∧ m < m') := by
  intro hLess
  have hPow : (0 : ℚ) < 2 ^ e := by positivity
  have hScale : (2 : ℚ) ^ e' = ((2 ^ (e' - e).toNat : Nat) : ℚ) * 2 ^ e := by
    rw [Nat.cast_pow, Nat.cast_ofNat, ← zpow_natCast, ← zpow_add₀ (by norm_num)]
    congr 1
    omega
  have hUpper := h.weak.2
  have hLower := h'.weak.1
  rw [hScale, ← mul_assoc, ← Nat.cast_mul] at hLower
  rcases hCan.ends hCan' hLess with hLt | ⟨hEq, hOdd | hOdd⟩
  · have hApart := (mul_lt_mul_iff_of_pos_right hPow).mpr (Nat.cast_lt (α := ℚ).mpr hLt)
    linarith
  · have hStrict := (h.strict hOdd).2
    rw [hEq] at hStrict
    linarith
  · have hStrict := (h'.strict hOdd).1
    rw [hScale, ← mul_assoc, ← Nat.cast_mul, ← hEq] at hStrict
    linarith

theorem Rounds.unique (hCan : Canonical m e) (hCan' : Canonical m' e') (h : Rounds m e v)
    (h' : Rounds m' e' v) : m = m' ∧ e = e' := by
  have hLess := h.not_less hCan hCan' h'
  have hMore := h'.not_less hCan' hCan h
  omega

---- Neighbours on a Grid ----

def inside (m : Nat) (e p : Int) (d : Nat) : Bool :=
  let (num, den) := gridRatio m e p
  let narrow := m = Nat.pow 2 52 ∧ Binary64.leastExponent < e
  let (unit, _) := gridRatio 1 e p
  let lower := 4 * num - (if narrow then unit else 2 * unit)
  let upper := 4 * num + 2 * unit
  let v := 4 * d * den
  if m % 2 = 0 then lower ≤ v && v ≤ upper else lower < v && v < upper

theorem inside_iff {d : Nat} : inside m e p d = true ↔ Rounds m e (value ⟨d, p⟩) := by
  have hUnit := gridRatio_eq (m := 1) (e := e) (p := p)
  have hTen : (0 : ℚ) < 10 ^ p := by positivity
  have hDen : (0 : ℚ) < (gridRatio 1 e p).2 := Nat.cast_pos.mpr gridRatio_pos
  have hLow : 4 * (m * (gridRatio 1 e p).1) -
      (if m = Nat.pow 2 52 ∧ Binary64.leastExponent < e then (gridRatio 1 e p).1
        else 2 * (gridRatio 1 e p).1) = lower m e * (gridRatio 1 e p).1 := by
    unfold lower
    rw [Nat.sub_mul]
    split <;> ring_nf
  have hUp : 4 * (m * (gridRatio 1 e p).1) + 2 * (gridRatio 1 e p).1 =
      (4 * m + 2) * (gridRatio 1 e p).1 := by
    ring
  have hScale : ∀ k : Nat, (k : ℚ) * 2 ^ e * (gridRatio 1 e p).2 =
      (k * (gridRatio 1 e p).1 : Nat) * 10 ^ p := by
    intro k
    rw [Nat.cast_mul, mul_assoc, mul_assoc, hUnit]
    ring
  have hValue : 4 * value ⟨d, p⟩ * (gridRatio 1 e p).2 =
      (4 * d * (gridRatio 1 e p).2 : Nat) * 10 ^ p := by
    simp only [value]
    push_cast
    ring
  have hLe : ∀ k : Nat, (k * (gridRatio 1 e p).1 ≤ 4 * d * (gridRatio 1 e p).2 ↔
      (k : ℚ) * 2 ^ e ≤ 4 * value ⟨d, p⟩) := by
    intro k
    rw [← mul_le_mul_iff_of_pos_right hDen, hScale, hValue, mul_le_mul_iff_of_pos_right hTen,
      Nat.cast_le]
  have hGe : ∀ k : Nat, (4 * d * (gridRatio 1 e p).2 ≤ k * (gridRatio 1 e p).1 ↔
      4 * value ⟨d, p⟩ ≤ (k : ℚ) * 2 ^ e) := by
    intro k
    rw [← mul_le_mul_iff_of_pos_right hDen, hScale, hValue, mul_le_mul_iff_of_pos_right hTen,
      Nat.cast_le]
  unfold inside Rounds
  have hSame : (gridRatio m e p).2 = (gridRatio 1 e p).2 := rfl
  simp only [gridRatio_unit (m := m), hSame, hLow, hUp]
  split
  · rw [Bool.and_eq_true, decide_eq_true_iff, decide_eq_true_iff, hLe, hGe]
  · rw [Bool.and_eq_true, decide_eq_true_iff, decide_eq_true_iff, ← not_le, ← not_le, hLe, hGe,
      not_le, not_le]

theorem neighbour?_rounds {d : Digits} (hSome : neighbour? m e p = some d) :
    Rounds m e d.value := by
  have hIns : d.exponent = p ∧ inside m e p d.digits = true := by
    revert hSome
    change (if (decide ((gridRatio m e p).1 / (gridRatio m e p).2 ≠ 0) && inside m e p _) &&
        inside m e p _ then _
      else if decide ((gridRatio m e p).1 / (gridRatio m e p).2 ≠ 0) && inside m e p _ then _
      else if inside m e p _ then _ else none) = _ → _
    intro hSome
    split_ifs at hSome <;> cases hSome <;> simp_all
  rcases d with ⟨d, p'⟩
  rcases hIns with ⟨rfl, hIns⟩
  exact inside_iff.mp hIns


theorem Rounds.of_strict (hLower : (lower m e : ℚ) * 2 ^ e < 4 * v)
    (hUpper : 4 * v < (4 * m + 2 : Nat) * 2 ^ e) : Rounds m e v := by
  unfold Rounds
  split
  · exact ⟨hLower.le, hUpper.le⟩
  · exact ⟨hLower, hUpper⟩

theorem gridRatio_le_iff :
    (gridRatio m e p).2 ≤ (gridRatio m e p).1 ↔ (10 : ℚ) ^ p ≤ m * 2 ^ e := by
  have hDen : (0 : ℚ) < (gridRatio m e p).2 := Nat.cast_pos.mpr gridRatio_pos
  rw [← Nat.cast_le (α := ℚ), ← mul_le_mul_iff_of_pos_right (show (0 : ℚ) < 10 ^ p by positivity),
    gridRatio_eq, mul_comm, mul_le_mul_iff_of_pos_right hDen]

/-
  One of the two neighbours of a dyadic number rounds to it, if
  the grid lies sixteen places below the first digit.
-/
theorem Canonical.rounds_neighbour {low : Nat} (hCan : Canonical m e)
    (hLarge : (10 : ℚ) ^ 16 * 10 ^ p ≤ m * 2 ^ e) (hBelow : (low : ℚ) * 10 ^ p ≤ m * 2 ^ e)
    (hAbove : m * 2 ^ e < ((low + 1 : Nat) : ℚ) * 10 ^ p) :
    Rounds m e (value ⟨low, p⟩) ∨ Rounds m e (value ⟨low + 1, p⟩) := by
  have hTwo : (0 : ℚ) < 2 ^ e := by positivity
  have hTen : (0 : ℚ) < 10 ^ p := by positivity
  have hSmall : (m : ℚ) * 2 ^ e ≤ (2 ^ 53 - 1 : Nat) * 2 ^ e :=
    mul_le_mul_of_nonneg_right (Nat.cast_le.mpr (Nat.le_sub_one_of_lt hCan.small)) hTwo.le
  by_contra hNeither
  rw [not_or] at hNeither
  have hPush : 4 * (low : ℚ) * 10 ^ p ≤ lower m e * 2 ^ e := by
    by_contra hLess
    refine hNeither.1 (.of_strict (by simp only [value]; linarith) ?_)
    simp only [value]
    push_cast
    linarith
  have hPull : ((4 * m + 2 : Nat) : ℚ) * 2 ^ e ≤ 4 * (low + 1 : Nat) * 10 ^ p := by
    by_contra hMore
    refine hNeither.2 (.of_strict ?_ (by simp only [value]; linarith))
    have hLower : (lower m e : ℚ) * 2 ^ e ≤ (4 * m : Nat) * 2 ^ e :=
      mul_le_mul_of_nonneg_right (Nat.cast_le.mpr (Nat.sub_le _ _)) hTwo.le
    simp only [value]
    push_cast at hLower hAbove ⊢
    linarith
  -- Two neighbours outside are further apart than the grid allows.
  have hPos : 0 < m := by
    rcases Nat.eq_zero_or_pos m with rfl | hPos
    · norm_num at hLarge
      linarith
    · exact hPos
  unfold lower at hPush
  split at hPush
  · rename_i hNarrow
    have hExact : (m : ℚ) * 2 ^ e = 2 ^ 52 * 2 ^ e := by
      rw [hNarrow.1]
      norm_num
    rw [Nat.cast_sub (by omega)] at hPush
    push_cast at hPush hPull hSmall
    linarith
  · rw [Nat.cast_sub (by omega)] at hPush
    push_cast at hPush hPull hSmall
    linarith

theorem neighbour?_isSome (hCan : Canonical m e) (hLarge : (10 : ℚ) ^ (p + 16) ≤ m * 2 ^ e) :
    (neighbour? m e p).isSome := by
  have hTen : (0 : ℚ) < 10 ^ p := by positivity
  have hDen : (0 : ℚ) < (gridRatio m e p).2 := Nat.cast_pos.mpr gridRatio_pos
  rw [zpow_add₀ (by norm_num), mul_comm] at hLarge
  set low := (gridRatio m e p).1 / (gridRatio m e p).2 with hLow
  have hNonzero : low ≠ 0 := by
    refine Nat.ne_of_gt (Nat.div_pos (gridRatio_le_iff.mpr (le_trans ?_ hLarge)) gridRatio_pos)
    norm_num
    linarith
  have hBelow : (low : ℚ) * 10 ^ p ≤ m * 2 ^ e := by
    rw [← mul_le_mul_iff_of_pos_right hDen, ← gridRatio_eq, mul_right_comm, ← Nat.cast_mul]
    exact mul_le_mul_of_nonneg_right (Nat.cast_le.mpr (Nat.div_mul_le_self _ _)) hTen.le
  have hAbove : m * 2 ^ e < ((low + 1 : Nat) : ℚ) * 10 ^ p := by
    rw [← mul_lt_mul_iff_of_pos_right hDen, ← gridRatio_eq, mul_right_comm, ← Nat.cast_mul]
    refine mul_lt_mul_of_pos_right (Nat.cast_lt.mpr ?_) hTen
    rw [Nat.mul_comm]
    exact Nat.lt_mul_div_succ _ gridRatio_pos
  have hEither := hCan.rounds_neighbour hLarge hBelow hAbove
  rw [← inside_iff, ← inside_iff] at hEither
  unfold neighbour?
  simp only [← hLow]
  change (if (decide (low ≠ 0) && inside m e p _) && inside m e p _ then _
      else if decide (low ≠ 0) && inside m e p _ then _
      else if inside m e p _ then _ else none).isSome = true
  split_ifs <;> simp_all

/- The estimate of the first digit is not too large for the exponents of doubles. -/
theorem ceilingPower_le (hZero : m ≠ 0) (hCan : Canonical m e) (hTop : e ≤ 971) :
    (10 : ℚ) ^ (ceilingPower m e - 1) ≤ m * 2 ^ e := by
  have hFirst : ∀ bits ∈ (List.range 2098).map (fun n : Nat => (n : Int) - 1074),
      (gridRatio 1 bits (Int.fdiv (bits * 30103) 100000 - 1)).2 ≤
        (gridRatio 1 bits (Int.fdiv (bits * 30103) 100000 - 1)).1 := by
    decide +kernel
  have hLog : m.log2 < 53 := (Nat.log2_lt hZero).mpr hCan.small
  have hLeast := hCan.least
  unfold Binary64.leastExponent at hLeast
  have hGuess := gridRatio_le_iff.mp (hFirst ((m.log2 : Int) + e)
    (mem_map.mpr ⟨(m.log2 + e + 1074).toNat, by simp; omega, by omega⟩))
  have hBits : (2 : ℚ) ^ ((m.log2 : Int) + e) ≤ m * 2 ^ e := by
    rw [zpow_add₀ (by norm_num), zpow_natCast]
    refine mul_le_mul_of_nonneg_right ?_ (by positivity)
    exact_mod_cast Nat.log2_self_le hZero
  rw [Nat.cast_one, one_mul] at hGuess
  have hBelow := hGuess.trans hBits
  unfold ceilingPower
  dsimp only
  generalize Int.fdiv (((m.log2 : Int) + e) * 30103) 100000 = guess at hBelow
  have hNot : ∀ k : Int, ¬ decide ((gridRatio m e k).1 < (gridRatio m e k).2) = true →
      (10 : ℚ) ^ k ≤ m * 2 ^ e := by
    intro k hK
    exact gridRatio_le_iff.mp (by simpa using hK)
  split_ifs with hA hB hC
  · exact absurd (gridRatio_le_iff.mpr hBelow) (by simpa using hA)
  · exact hBelow
  · simpa using hNot _ hB
  · rw [show guess + 2 - 1 = guess + 1 by ring]
    exact hNot _ hC

theorem value_stripLoop (fuel n : Nat) (e : Int) : (stripLoop fuel n e).value = value ⟨n, e⟩ := by
  induction fuel generalizing n e with
  | zero => rfl
  | succ fuel ih =>
    unfold stripLoop
    split
    · rename_i hZero
      have hExact : ((n / 10 : Nat) : ℚ) * 10 = n := by
        exact_mod_cast Nat.div_mul_cancel (Nat.dvd_of_mod_eq_zero hZero.2)
      rw [ih, value, value, zpow_add_one₀ (by norm_num)]
      simp only
      rw [← hExact]
      ring
    · rfl

theorem shortest_rounds (hZero : m ≠ 0) (hCan : Canonical m e) (hTop : e ≤ 971) :
    Rounds m e (shortest m e).value := by
  unfold shortest strip
  dsimp only
  rw [value_stripLoop]
  have hLast : (neighbour? m e (ceilingPower m e - (16 + 1 : Nat))).isSome := by
    refine neighbour?_isSome hCan ?_
    convert ceilingPower_le hZero hCan hTop using 2
    push_cast
    ring
  cases hFnd : (List.range 17).findSome? fun i : Nat =>
      neighbour? m e (ceilingPower m e - (i + 1 : Nat)) with
  | none =>
    have hNone := findSome?_eq_none_iff.mp hFnd 16 (by simp)
    rw [hNone] at hLast
    cases hLast
  | some d =>
    rcases exists_of_findSome?_eq_some hFnd with ⟨i, -, hSome⟩
    exact neighbour?_rounds hSome

end Digits

---- Reading a Text ----

namespace Decimal

open Digits

def readExponent : List Char → Int
  | _ :: '-' :: cs => -(Nat.ofDigitChars 10 cs 0 : Int)
  | _ :: _ :: cs => (Nat.ofDigitChars 10 cs 0 : Int)
  | _ => 0

def read (cs : List Char) : ℚ :=
  let mantissa := cs.takeWhile (· ≠ 'e')
  let places := (mantissa.dropWhile (· ≠ '.')).length - 1
  Nat.ofDigitChars 10 (mantissa.filter (· ≠ '.')) 0 *
    10 ^ (readExponent (cs.dropWhile (· ≠ 'e')) - places)

theorem ne_of_isDigit {c d : Char} (hDigit : c.isDigit = true) (hNot : d.isDigit = false) :
    decide (c ≠ d) = true := by
  refine decide_eq_true ?_
  rintro rfl
  rw [hDigit] at hNot
  cases hNot

theorem read_append {cs t : List Char} (hMantissa : ∀ c ∈ cs, c.isDigit = true ∨ c = '.')
    (hTail : t = [] ∨ ∃ r, t = 'e' :: r) :
    read (cs ++ t) = Nat.ofDigitChars 10 (cs.filter (· ≠ '.')) 0 *
      10 ^ (readExponent t - ((cs.dropWhile (· ≠ '.')).length - 1 : Nat)) := by
  have hPlain : ∀ c ∈ cs, decide (c ≠ 'e') = true := by
    intro c hC
    rcases hMantissa c hC with hDigit | rfl
    · exact ne_of_isDigit hDigit rfl
    · rfl
  have hTake : t.takeWhile (fun c => decide (c ≠ 'e')) = [] ∧
      t.dropWhile (fun c => decide (c ≠ 'e')) = t := by
    rcases hTail with rfl | ⟨r, rfl⟩ <;> exact ⟨rfl, rfl⟩
  unfold read
  dsimp only
  rw [takeWhile_append_of_pos hPlain, dropWhile_append_of_pos hPlain, hTake.1, hTake.2, append_nil]

theorem read_point {a b t : List Char} (hWhole : ∀ c ∈ a, c.isDigit = true)
    (hFraction : ∀ c ∈ b, c.isDigit = true) (hTail : t = [] ∨ ∃ r, t = 'e' :: r) :
    read ((a ++ '.' :: b) ++ t) =
      Nat.ofDigitChars 10 (a ++ b) 0 * 10 ^ (readExponent t - b.length) := by
  have hDigits : ∀ cs : List Char, (∀ c ∈ cs, c.isDigit = true) →
      cs.filter (fun c => decide (c ≠ '.')) = cs :=
    fun cs hCs => filter_eq_self.mpr (fun c hC => ne_of_isDigit (hCs c hC) rfl)
  have hDrop : (a ++ '.' :: b).dropWhile (fun c => decide (c ≠ '.')) = '.' :: b := by
    rw [dropWhile_append_of_pos (fun c hC => ne_of_isDigit (hWhole c hC) rfl)]
    rfl
  rw [read_append _ hTail, hDrop, filter_append, hDigits a hWhole,
    filter_cons_of_neg (by decide), hDigits b hFraction]
  · rfl
  · intro c hC
    rcases mem_append.mp hC with hC | hC
    · exact .inl (hWhole c hC)
    · exact (mem_cons.mp hC).symm.imp_left (hFraction c)

theorem readExponent_exponentText (e : Int) : readExponent (exponentText e).toList = e := by
  have hDigits : Nat.ofDigitChars 10 (padded 2 e.natAbs).toList 0 = e.natAbs := by
    simp [padded, Nat.ofDigitChars_append]
  unfold exponentText
  split
  · have hText : ("e" ++ "-" ++ padded 2 e.natAbs).toList =
        'e' :: '-' :: (padded 2 e.natAbs).toList := by simp
    rw [hText, readExponent, hDigits]
    omega
  · have hText : ("e" ++ "+" ++ padded 2 e.natAbs).toList =
        'e' :: '+' :: (padded 2 e.natAbs).toList := by simp
    rw [hText, readExponent, hDigits]
    · omega
    · simp

theorem exponentText_head (e : Int) : ∃ r, (exponentText e).toList = 'e' :: r :=
  ⟨(exponentText e).toList.tail, by simp [exponentText]⟩

variable (d : Digits)

theorem chars_isDigit {c : Char} (hC : c ∈ d.chars) : c.isDigit = true :=
  Nat.isDigit_of_mem_toDigits (by decide) (by decide) hC

theorem ofDigitChars_chars : Nat.ofDigitChars 10 d.chars 0 = d.digits :=
  Nat.ofDigitChars_ten_toDigits

theorem read_scientific : read (scientific d).toList = d.value := by
  have hNumber := ofDigitChars_chars d
  have hDigit : ∀ c ∈ d.chars, c.isDigit = true := fun _ => chars_isDigit d
  have hTail := exponentText_head d.magnitude
  have hExponent := readExponent_exponentText d.magnitude
  unfold scientific value
  split
  · rename_i hNil
    exact absurd hNil Nat.toDigits_ne_nil
  · rename_i c hOne
    rw [hOne] at hNumber hDigit
    rw [String.toList_append, String.toList_ofList,
      read_append (fun c hC => .inl (hDigit c hC)) (.inr hTail), hExponent]
    have hNot := ne_of_isDigit (d := '.') (hDigit c (by simp)) rfl
    simp only [filter_cons, hNot, filter_nil, dropWhile_cons, dropWhile_nil,
      hNumber, if_true, length_nil]
    simp [magnitude, hOne]
  · rename_i c rest _ hMore
    rw [hMore] at hNumber hDigit
    rw [String.toList_append, String.toList_ofList]
    refine (read_point (a := [c]) (fun x hX => hDigit x ?_) (fun x hX => hDigit x ?_)
      (.inr hTail)).trans ?_
    · exact mem_cons.mpr (.inl (mem_singleton.mp hX))
    · exact mem_cons_of_mem _ hX
    · rw [hExponent]
      simp only [singleton_append, hNumber, magnitude, hMore, length_cons]
      congr 2
      omega

theorem read_withPoint : read (Layout.withPoint d).toList = d.value := by
  have hNumber := ofDigitChars_chars d
  have hDigit : ∀ c ∈ d.chars, c.isDigit = true := fun _ => chars_isDigit d
  have hZeros : ∀ k, ∀ c ∈ List.replicate k '0', c.isDigit = true := by
    intro k c hC
    rw [eq_of_mem_replicate hC]
    rfl
  have hPoint := fun a b hA hB => read_point (a := a) (b := b) (t := []) hA hB (.inl rfl)
  simp only [append_nil, readExponent, zero_sub] at hPoint
  unfold Layout.withPoint positional value
  dsimp only
  split
  · rename_i hWhole
    rw [String.toList_append, String.toList_ofList,
      show ".0".toList = '.' :: List.replicate 1 '0' from rfl,
      hPoint _ _ (forall_mem_append.mpr ⟨hDigit, hZeros _⟩) (hZeros 1)]
    simp only [Nat.ofDigitChars_append, hNumber, Nat.ofDigitChars_replicate_zero]
    have hPow : (10 : ℚ) ^ d.exponent.toNat = 10 ^ d.exponent := by
      rw [← zpow_natCast, Int.toNat_of_nonneg hWhole]
    push_cast
    rw [hPow, length_singleton, Nat.cast_one, zpow_neg_one]
    ring
  · rename_i hFraction
    have hPlaces : -(((-d.exponent).toNat : Nat) : Int) = d.exponent := by omega
    split
    · rename_i hShort
      rw [String.toList_ofList, hPoint _ _ (fun c hC => hDigit c (mem_of_mem_take hC))
        (fun c hC => hDigit c (mem_of_mem_drop hC)), take_append_drop, hNumber,
        length_drop, Nat.sub_sub_self hShort.le, hPlaces]
    · rename_i hLong
      rw [String.toList_ofList]
      refine (hPoint ['0'] (List.replicate ((-d.exponent).toNat - d.chars.length) '0' ++ d.chars)
        (hZeros 1) (forall_mem_append.mpr ⟨hZeros _, hDigit⟩)).trans ?_
      rw [length_append, length_replicate, Nat.sub_add_cancel (Nat.le_of_not_lt hLong), hPlaces]
      simp [Nat.ofDigitChars_append, Nat.ofDigitChars_cons, hNumber]

end Decimal

---- Texts of Doubles ----

namespace Binary64

open Digits

theorem ofFloat_finite {x : Float} {negative : Bool} {m : Nat} {e : Int}
    (hFinite : ofFloat x = .finite negative m e) : Canonical m e ∧ e ≤ 971 := by
  unfold ofFloat ofBits at hFinite
  simp only [Nat.pow_eq] at hFinite
  split_ifs at hFinite <;> cases hFinite
  · exact ⟨⟨by omega, le_refl _, .inr rfl⟩, by decide⟩
  · refine ⟨⟨by omega, ?_, .inl (by omega)⟩, by omega⟩
    unfold leastExponent
    omega

open Float.Model (Format) in
open Float.Model.UnpackedFloat in
theorem toBits_of_nan {x : Float} (hNan : ofFloat x = .nan) :
    x.toBits.toBitVec = packedNaN Format.binary64 := by
  unfold ofFloat ofBits at hNan
  simp only [Nat.pow_eq] at hNan
  split_ifs at hNan with hExponent hFraction
  refine x.toModel.valid.eq_packedNaN ?_ ?_
  · apply BitVec.eq_of_toNat_eq
    simp only [unpackExponent, BitVec.cast_eq, BitVec.extractLsb_toNat, Nat.shiftRight_eq_div_pow]
    exact hExponent
  · intro hZero
    apply hFraction
    have hNat := congrArg BitVec.toNat hZero
    simp only [unpackMantissa, BitVec.cast_eq, BitVec.extractLsb_toNat, Nat.shiftRight_eq_div_pow,
      pow_zero, Nat.div_one] at hNat
    exact hNat

theorem ofBits_inj {a b : Nat} (hA : a < 2 ^ 64) (hB : b < 2 ^ 64) (hSame : ofBits a = ofBits b)
    (hNan : ofBits a ≠ .nan) : a = b := by
  have hSign : ∀ {p q : Nat}, (p == 1) = (q == 1) → (p = 1 ↔ q = 1) := by
    intro p q hEq
    rw [← beq_iff_eq, hEq, beq_iff_eq]
  unfold ofBits at hSame hNan
  simp only [Nat.pow_eq] at hSame hNan
  split_ifs at hSame hNan <;>
    simp only [reduceCtorEq, finite.injEq, infinite.injEq, not_true, ne_eq] at hSame hNan
  · have := hSign hSame
    omega
  · have := hSign hSame.1
    omega
  · omega
  · omega
  · have := hSign hSame.1
    omega

theorem ofFloat_injective : Function.Injective ofFloat := by
  have hExt : ∀ {x y : Float}, x.toBits = y.toBits → x = y := by
    rintro ⟨⟨⟩⟩ ⟨⟨⟩⟩ hBits
    simpa [Float.toBits] using hBits
  intro x y hSame
  by_cases hNan : ofFloat x = .nan
  · have hBits := (toBits_of_nan hNan).trans (toBits_of_nan (hSame.symm.trans hNan)).symm
    exact hExt (UInt64.toBitVec_inj.mp hBits)
  · exact hExt (UInt64.toNat_inj.mp
      (ofBits_inj x.toBits.toNat_lt y.toBits.toNat_lt hSame hNan))

end Binary64

namespace Layout

open Digits Binary64

theorem chars_head (d : Digits) : ∃ c rest, d.chars = c :: rest ∧ c.isDigit = true := by
  cases hChars : d.chars with
  | nil => exact absurd hChars Nat.toDigits_ne_nil
  | cons c rest => exact ⟨c, rest, rfl, Decimal.chars_isDigit d (hChars ▸ mem_cons_self)⟩

theorem withPoint_head (d : Digits) :
    ∃ c rest, (withPoint d).toList = c :: rest ∧ c.isDigit = true := by
  rcases chars_head d with ⟨c, rest, hChars, hDigit⟩
  unfold withPoint Decimal.positional
  dsimp only
  split
  · exact ⟨c, _, by simp [hChars]; rfl, hDigit⟩
  · split
    · rename_i hShort
      obtain ⟨k, hK⟩ : ∃ k, d.chars.length - (-d.exponent).toNat = k + 1 :=
        ⟨d.chars.length - (-d.exponent).toNat - 1, by omega⟩
      exact ⟨c, _, by rw [hK, hChars]; simp; rfl, hDigit⟩
    · exact ⟨'0', _, by simp; rfl, rfl⟩

theorem scientific_head (d : Digits) :
    ∃ c rest, (Decimal.scientific d).toList = c :: rest ∧ c.isDigit = true := by
  rcases chars_head d with ⟨c, rest, hChars, hDigit⟩
  unfold Decimal.scientific
  rw [hChars]
  cases rest <;> exact ⟨c, _, by simp; rfl, hDigit⟩

/- What the text of a double starts with, and what number it stands for. -/
def Spelled (negative : Bool) (c : Char) (rest : List Char) : Binary64 → Prop
  | .finite b m e => b = negative ∧ c.isDigit = true ∧ Canonical m e ∧
    Rounds m e (Decimal.read (c :: rest))
  | .infinite b => b = negative ∧ c = 'i'
  | .nan => negative = false ∧ c = 'n'

theorem Spelled.unique {negative : Bool} {c : Char} {rest : List Char} {v w : Binary64}
    (hV : Spelled negative c rest v) (hW : Spelled negative c rest w) : v = w := by
  cases v <;> cases w
  · rcases hV with ⟨rfl, -, hCan, hRounds⟩
    rcases hW with ⟨rfl, -, hCan', hRounds'⟩
    rcases hRounds.unique hCan hCan' hRounds' with ⟨rfl, rfl⟩
    rfl
  · exact absurd hV.2.1 (by rw [hW.2]; decide)
  · exact absurd hV.2.1 (by rw [hW.2]; decide)
  · exact absurd hW.2.1 (by rw [hV.2]; decide)
  · rw [hV.1, hW.1]
  · exact absurd (hV.2.symm.trans hW.2) (by decide)
  · exact absurd hW.2.1 (by rw [hV.2]; decide)
  · exact absurd (hV.2.symm.trans hW.2) (by decide)
  · rfl

theorem Spelled.head_ne {negative : Bool} {c : Char} {rest : List Char} {v : Binary64}
    (hV : Spelled negative c rest v) : c ≠ '-' := by
  rintro rfl
  cases v
  · exact absurd hV.2.1 (by decide)
  · exact absurd hV.2 (by decide)
  · exact absurd hV.2 (by decide)

theorem write_spelled (x : Float) :
    ∃ negative c rest, (value.write x).toList = (Decimal.signText negative).toList ++ c :: rest ∧
      Spelled negative c rest (ofFloat x) := by
  unfold write
  cases hCase : ofFloat x with
  | infinite negative => exact ⟨negative, 'i', ['n', 'f'], String.toList_append, rfl, rfl⟩
  | nan => exact ⟨false, 'n', ['a', 'n'], rfl, rfl, rfl⟩
  | finite negative m e =>
    rcases ofFloat_finite hCase with ⟨hCan, hTop⟩
    dsimp only
    split
    · rename_i hZero
      have hRead : Decimal.read ['0', '.', '0'] = 0 := by
        rw [show ['0', '.', '0'] = (withPoint ⟨0, 0⟩).toList from rfl, Decimal.read_withPoint,
          Digits.value]
        norm_num
      refine ⟨negative, '0', ['.', '0'], String.toList_append, rfl, rfl, hCan, ?_⟩
      rw [hRead, hZero, Rounds, if_pos rfl, lower]
      norm_num
      positivity
    · rename_i hZero
      have hRounds := shortest_rounds hZero hCan hTop
      rw [String.toList_append]
      split
      · rcases withPoint_head (shortest m e) with ⟨c, rest, hText, hDigit⟩
        rw [hText]
        exact ⟨negative, c, rest, rfl, rfl, hDigit, hCan, by rwa [← hText, Decimal.read_withPoint]⟩
      · rcases scientific_head (shortest m e) with ⟨c, rest, hText, hDigit⟩
        rw [hText]
        exact ⟨negative, c, rest, rfl, rfl, hDigit, hCan, by rwa [← hText, Decimal.read_scientific]⟩

theorem write_injective : Function.Injective value.write := by
  intro x y hSame
  rcases write_spelled x with ⟨b, c, rest, hX, hSpd⟩
  rcases write_spelled y with ⟨b', c', rest', hY, hSpd'⟩
  have hNot := hSpd.head_ne
  have hNot' := hSpd'.head_ne
  have hLists : (Decimal.signText b).toList ++ c :: rest =
      (Decimal.signText b').toList ++ c' :: rest' := by
    rw [← hX, ← hY, hSame]
  have hParts : b = b' ∧ c = c' ∧ rest = rest' := by
    cases b <;> cases b' <;> simp_all [Decimal.signText]
  rcases hParts with ⟨rfl, rfl, rfl⟩
  exact ofFloat_injective (hSpd.unique hSpd')

end Layout

end CircuitGraph
