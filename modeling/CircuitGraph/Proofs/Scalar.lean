import CircuitGraph.Scalar
import Mathlib.Algebra.Order.Ring.Int
import Mathlib.Algebra.Order.Ring.Rat
import Mathlib.Data.Prod.Lex

/-
  Laws of numbers.

  Doubles that are numbers are in order, even though
  arithmetic on them is not exact.
-/

---- Ordered Numbers ----

namespace CircuitGraph

namespace Scalar

variable {K : Type} [Scalar K]

def Placed (c : K) : Prop :=
  ∀ a b : K, a < b → a < c ∨ c < b

/- Numbers whose order is one, as far as they have a place in it. -/
class Ordered (K : Type) [Scalar K] : Prop where
  irrefl : ∀ a : K, ¬ a < a
  trans : ∀ {a b c : K}, a < b → b < c → a < c
  placed_left : ∀ {a b : K}, a < b → Placed a
  placed_right : ∀ {a b : K}, a < b → Placed b

/- Whether natural numbers below a bound stay apart. -/
def Counts (K : Type) [Scalar K] (bound : Nat) : Prop :=
  ∀ i j : Nat, i < j → j < bound → (i : K) < (j : K)

/-
  Whether sums of natural numbers are exact below a bound, and
  differences of natural numbers are not above zero by mistake.
-/
structure Exact (K : Type) [Scalar K] (bound : Nat) : Prop where
  add : ∀ i j : Nat, i + j < bound → (i : K) + (j : K) = ((i + j : Nat) : K)
  sign : ∀ i j : Nat, ((0 : Nat) : K) < (i : K) - (j : K) → j < i

theorem Counts.mono {m n : Nat} (hCnt : Counts K n) (hLe : m ≤ n) : Counts K m :=
  fun i j hLt hBound => hCnt i j hLt (Nat.lt_of_lt_of_le hBound hLe)

theorem Counts.placed [Ordered K] {i n : Nat} (hCnt : Counts K n) (hSome : 1 < n) (hLt : i < n) :
    Placed (i : K) := by
  cases i with
  | zero => exact Ordered.placed_left (hCnt 0 1 Nat.zero_lt_one hSome)
  | succ i => exact Ordered.placed_right (hCnt 0 (i + 1) (Nat.succ_pos i) hLt)

theorem Placed.lt_of_lt_of_not {a b c : K} (hPlaced : Placed c) (hLt : a < b) (hNot : ¬ c < b) :
    a < c :=
  (hPlaced a b hLt).resolve_right hNot

theorem Placed.lt_of_not_of_lt {a b c : K} (hPlaced : Placed c) (hLt : a < b) (hNot : ¬ a < c) :
    c < b :=
  (hPlaced a b hLt).resolve_left hNot

---- Greatest and Least Numbers ----

variable {K : Type} {r : K → K → Prop} [DecidableRel r]

theorem foldl_pick_mem (x : K) (xs : List K) :
    xs.foldl (fun a b => if r a b then b else a) x ∈ x :: xs := by
  induction xs generalizing x with
  | nil => simp
  | cons y ys ih =>
    rw [List.foldl_cons]
    rcases List.mem_cons.mp (ih (if r x y then y else x)) with hEq | hRest
    · rw [hEq]
      split <;> simp
    · simp [hRest]

theorem not_foldl_pick (hIrrefl : ∀ a, ¬ r a a) (hTrans : ∀ {a b c}, r a b → r b c → r a c) (x : K)
    (xs : List K) {e : K} (hBef : ¬ r x e ∨ e ∈ xs) :
    ¬ r (xs.foldl (fun a b => if r a b then b else a) x) e := by
  induction xs generalizing x with
  | nil => simpa using hBef
  | cons y ys ih =>
    rw [List.foldl_cons]
    apply ih
    rcases hBef with hNot | hM
    · left
      split
      · rename_i hStep
        exact fun hAfter => hNot (hTrans hStep hAfter)
      · exact hNot
    · rcases List.mem_cons.mp hM with rfl | hRest
      · left
        split
        · exact hIrrefl e
        · assumption
      · exact .inr hRest

variable [Scalar K] {xs : List K} {a x : K}

theorem mem_of_greatest? (hGreatest : greatest? xs = some a) : a ∈ xs := by
  cases xs with
  | nil => simp [greatest?] at hGreatest
  | cons y ys =>
    rw [← Option.some.inj hGreatest]
    exact foldl_pick_mem y ys

theorem greatest?_eq_none_iff : greatest? xs = none ↔ xs = [] := by
  cases xs <;> simp [greatest?]

theorem least?_eq_none_iff : least? xs = none ↔ xs = [] := by
  cases xs <;> simp [least?]

variable [Ordered K]

theorem not_lt_of_greatest? (hGreatest : greatest? xs = some a) (hM : x ∈ xs) : ¬ a < x := by
  cases xs with
  | nil => simp at hM
  | cons y ys =>
    rw [← Option.some.inj hGreatest]
    refine not_foldl_pick Ordered.irrefl Ordered.trans y ys ((List.mem_cons.mp hM).imp ?_ id)
    exact fun hEq => hEq ▸ Ordered.irrefl x

theorem not_lt_of_least? (hLeast : least? xs = some a) (hM : x ∈ xs) : ¬ x < a := by
  cases xs with
  | nil => simp at hM
  | cons y ys =>
    rw [← Option.some.inj hLeast]
    refine not_foldl_pick (r := fun a b => b < a) Ordered.irrefl
      (fun hL hR => Ordered.trans hR hL) y ys ((List.mem_cons.mp hM).imp ?_ id)
    exact fun hEq => hEq ▸ Ordered.irrefl x

end Scalar

---- Rational Numbers ----

theorem lt_or_lt_of_lt' {α : Type} [LinearOrder α] {a b : α} (hLt : a < b) (c : α) :
    a < c ∨ c < b :=
  (lt_or_ge a c).imp_right (fun hLe => lt_of_le_of_lt hLe hLt)

instance instRational : Scalar ℚ where
  decLt := fun _ _ => inferInstance

instance instOrderedRational : Scalar.Ordered ℚ where
  irrefl := lt_irrefl
  trans := lt_trans
  placed_left {a _} _ _ _ hLt := lt_or_lt_of_lt' hLt a
  placed_right {_ b} _ _ _ hLt := lt_or_lt_of_lt' hLt b

theorem Scalar.counts_rational (n : Nat) : Scalar.Counts ℚ n :=
  fun _ _ hLt _ => Nat.cast_lt.mpr hLt

namespace Doubles

open Float.Model

/- The place of an unpacked double in the order: by sign, exponent and mantissa. -/
def place? : UnpackedFloat → Option (ℤ ×ₗ ℤ ×ₗ ℤ)
  | .notANumber => none
  | .infinity .negative => some (toLex (-2, toLex (0, 0)))
  | .infinity .positive => some (toLex (2, toLex (0, 0)))
  | .zero _ => some (toLex (0, toLex (0, 0)))
  | .finite .negative m e _ => some (toLex (-1, toLex (-e, -(m : ℤ))))
  | .finite .positive m e _ => some (toLex (1, toLex (e, (m : ℤ))))

theorem then_eq_lt_iff {e e' : Int} {m m' : Nat} :
    (compare e e').then (compare m m') = .lt ↔ e < e' ∨ e = e' ∧ m < m' := by
  rw [Ordering.then_eq_lt, compare_lt_iff_lt, compare_eq_iff_eq, compare_lt_iff_lt]

theorem some_eq_lt_iff {o : Ordering} {a b : ℤ ×ₗ ℤ ×ₗ ℤ} (hLess : o = .lt ↔ a < b) :
    some o = some .lt ↔ ∃ c d, some a = some c ∧ some b = some d ∧ c < d := by
  simpa using hLess

theorem compare_eq_lt_iff {x y : UnpackedFloat} :
    x.compare y = some .lt ↔ ∃ a b, place? x = some a ∧ place? y = some b ∧ a < b := by
  have hFirst : ∀ {o : Option (ℤ ×ₗ ℤ ×ₗ ℤ)}, (none : Option Ordering) = some .lt ↔
      ∃ a b, (none : Option (ℤ ×ₗ ℤ ×ₗ ℤ)) = some a ∧ o = some b ∧ a < b := by
    simp
  have hNone : ∀ {o : Option (ℤ ×ₗ ℤ ×ₗ ℤ)}, (none : Option Ordering) = some .lt ↔
      ∃ a b, o = some a ∧ (none : Option (ℤ ×ₗ ℤ ×ₗ ℤ)) = some b ∧ a < b := by
    simp
  cases x with
  | notANumber => exact hFirst
  | zero s =>
    cases y with
    | notANumber => exact hNone
    | zero s' => exact some_eq_lt_iff (by simp)
    | infinity s' => cases s' <;> exact some_eq_lt_iff (by simp [Prod.Lex.toLex_lt_toLex])
    | finite s' m' e' h' =>
      cases s' <;> exact some_eq_lt_iff (by simp [Prod.Lex.toLex_lt_toLex])
  | infinity s =>
    cases y with
    | notANumber => cases s <;> exact hNone
    | zero s' => cases s <;> exact some_eq_lt_iff (by simp [Prod.Lex.toLex_lt_toLex])
    | infinity s' =>
      cases s <;> cases s' <;> exact some_eq_lt_iff (by simp [Prod.Lex.toLex_lt_toLex, compare])
    | finite s' m' e' h' =>
      cases s <;> cases s' <;> exact some_eq_lt_iff (by simp [Prod.Lex.toLex_lt_toLex])
  | finite s m e h =>
    cases y with
    | notANumber => cases s <;> exact hNone
    | zero s' => cases s <;> exact some_eq_lt_iff (by simp [Prod.Lex.toLex_lt_toLex])
    | infinity s' =>
      cases s <;> cases s' <;> exact some_eq_lt_iff (by simp [Prod.Lex.toLex_lt_toLex])
    | finite s' m' e' h' =>
      cases s <;> cases s'
      · have hSwap : ((compare e e').then (compare m m')).swap = .lt ↔
            e' < e ∨ e = e' ∧ m' < m := by
          rw [Ordering.swap_then, Std.OrientedOrd.eq_swap.symm, Std.OrientedOrd.eq_swap.symm,
            then_eq_lt_iff, eq_comm]
        exact some_eq_lt_iff (by simp [Prod.Lex.toLex_lt_toLex, hSwap])
      · exact some_eq_lt_iff (by simp [Prod.Lex.toLex_lt_toLex])
      · exact some_eq_lt_iff (by simp [Prod.Lex.toLex_lt_toLex])
      · exact some_eq_lt_iff (by simp [Prod.Lex.toLex_lt_toLex, then_eq_lt_iff])

theorem lt_iff {x y : Float} :
    x < y ↔ ∃ a b, place? x.toModel.unpack = some a ∧ place? y.toModel.unpack = some b ∧ a < b := by
  rw [← compare_eq_lt_iff]
  change Float.lt x y = true ↔ _
  rw [Float.lt, decide_eq_true_iff]
  change Float.Model.lt _ _ = true ↔ _
  simp [Float.Model.lt, UnpackedFloat.lt]

theorem placed_of_place {z : Float} {c : ℤ ×ₗ ℤ ×ₗ ℤ} (hPlace : place? z.toModel.unpack = some c) :
    Scalar.Placed z := by
  intro x y hLt
  rcases lt_iff.mp hLt with ⟨a, b, hX, hY, hLess⟩
  exact (lt_or_lt_of_lt' hLess c).imp (fun hBelow => lt_iff.mpr ⟨a, c, hX, hPlace, hBelow⟩)
    (fun hAbove => lt_iff.mpr ⟨c, b, hPlace, hY, hAbove⟩)

end Doubles

instance instOrderedFloat : Scalar.Ordered Float where
  irrefl x hLt := by
    rcases Doubles.lt_iff.mp hLt with ⟨a, b, hA, hB, hLess⟩
    obtain rfl := Option.some.inj (hA.symm.trans hB)
    exact lt_irrefl a hLess
  trans hL hR := by
    rcases Doubles.lt_iff.mp hL with ⟨a, b, hA, hB, hFirst⟩
    rcases Doubles.lt_iff.mp hR with ⟨b', c, hB', hC, hSecond⟩
    obtain rfl := Option.some.inj (hB.symm.trans hB')
    exact Doubles.lt_iff.mpr ⟨a, c, hA, hC, lt_trans hFirst hSecond⟩
  placed_left hLt := by
    rcases Doubles.lt_iff.mp hLt with ⟨a, b, hA, -, -⟩
    exact Doubles.placed_of_place hA
  placed_right hLt := by
    rcases Doubles.lt_iff.mp hLt with ⟨a, b, -, hB, -⟩
    exact Doubles.placed_of_place hB

end CircuitGraph
