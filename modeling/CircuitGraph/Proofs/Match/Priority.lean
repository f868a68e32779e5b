import CircuitGraph.Proofs.Decimal.Doubles
import CircuitGraph.Proofs.Decimal.Written
import CircuitGraph.Proofs.Match.Trie

/-
  Ranks by priority.

  Numbers of all kinds lie on one line, so rules whose
  priorities are numbers are ranked by descending priority,
  and by number where their priorities are equal.
-/

---- Heights ----

namespace CircuitGraph

open List

theorem Binary64.isFinite_of_finite {x : Float} {negative : Bool} {m : Nat} {e : Int}
    (hX : ofFloat x = .finite negative m e) : x.isFinite = true := by
  have hExponent : x.toBits.toNat / 2 ^ 52 % 2 ^ 11 < 2047 := by
    unfold ofFloat ofBits at hX
    simp only [Nat.pow_eq] at hX
    split_ifs at hX <;> omega
  exact isFinite_unpack (unpackExponent_lt hExponent)

namespace Value

variable {v w : Value}

/- On which side of all finite numbers a double lies; none for those that are finite. -/
def side (x : Float) : ℤ :=
  if 0.0 < x then 1 else if x < 0.0 then -1 else 0

theorem lt_iff_side : ∀ x ∈ [(0.0 : Float), 1.0 / 0.0, -1.0 / 0.0],
    ∀ y ∈ [(0.0 : Float), 1.0 / 0.0, -1.0 / 0.0], x < y ↔ side x < side y := by
  decide +kernel

/- The place of a number, with the infinite ones at both ends. -/
def height (v : Value) : ℤ ×ₗ ℚ :=
  toLex (side v.beyond, (v.quotient?.map (fun q => (q.1 : ℚ) / q.2)).getD 0)

def IsPlaced (v : Value) : Prop :=
  v.isNumeric = true ∧ v.isUndefined = false

theorem IsPlaced.cases (hV : v.IsPlaced) :
    (∃ n d, v.quotient? = some (n, d) ∧ 0 < d ∧ v.beyond = 0.0) ∨
      v.quotient? = none ∧ (v.beyond = 1.0 / 0.0 ∨ v.beyond = -1.0 / 0.0) := by
  cases v with
  | whole i => exact .inl ⟨i, 1, rfl, Nat.one_pos, rfl⟩
  | truth b => exact .inl ⟨b.toNat, 1, rfl, Nat.one_pos, rfl⟩
  | decimal x =>
    cases hX : Binary64.ofFloat x with
    | finite negative m e =>
      refine .inl ⟨_, _, by rw [quotient?, hX]; rfl, Nat.pow_pos Nat.two_pos, ?_⟩
      rw [beyond, if_pos (Binary64.isFinite_of_finite hX)]
    | infinite negative =>
      -- there are two infinite doubles
      refine .inr ⟨by rw [quotient?, hX], ?_⟩
      cases negative with
      | false =>
        obtain rfl : x = 1.0 / 0.0 := Binary64.ofFloat_injective (hX.trans (by decide +kernel))
        exact .inl (by rw [beyond, if_neg (by decide +kernel)])
      | true =>
        obtain rfl : x = -1.0 / 0.0 := Binary64.ofFloat_injective (hX.trans (by decide +kernel))
        exact .inr (by rw [beyond, if_neg (by decide +kernel)])
    | nan =>
      obtain rfl : x = 0.0 / 0.0 := Binary64.ofFloat_injective (hX.trans (by decide +kernel))
      exact absurd hV.2 (by decide +kernel)
  | _ => cases hV.1

theorem less_iff (hV : v.IsPlaced) (hW : w.IsPlaced) : v.less w = true ↔ v.height < w.height := by
  have hZero : side 0.0 = 0 ∧ side (1.0 / 0.0) = 1 ∧ side (-1.0 / 0.0) = -1 := by decide +kernel
  have hTable := lt_iff_side
  simp only [forall_mem_cons, hZero] at hTable
  unfold less height
  rcases hV.cases with ⟨n, d, hQ, hD, hB⟩ | ⟨hQ, hB | hB⟩ <;>
    rcases hW.cases with ⟨m, e, hQ', hE, hB'⟩ | ⟨hQ', hB' | hB'⟩ <;>
    simp only [hQ, hQ', hB, hB', hZero, Prod.Lex.toLex_lt_toLex, Option.map_some, Option.map_none,
      Option.getD_some, Option.getD_none, decide_eq_true_eq, hTable]
  · simp
    rw [div_lt_div_iff₀ (Nat.cast_pos.mpr hD) (Nat.cast_pos.mpr hE)]
    exact_mod_cast Iff.rfl
  all_goals simp

end Value

---- Ranks ----

namespace Ranking

def key (a : Value × Nat) : (ℤ ×ₗ ℚ)ᵒᵈ ×ₗ ℕ :=
  toLex (OrderDual.toDual a.1.height, a.2)

theorem key_lt_iff {a b : Value × Nat} (hA : a.1.IsPlaced) (hB : b.1.IsPlaced) :
    key a < key b ↔ b.1.less a.1 = true ∨ a.1.less b.1 = false ∧ a.2 < b.2 := by
  rw [← Bool.not_eq_true, Value.less_iff hA hB, Value.less_iff hB hA, key, key,
    Prod.Lex.toLex_lt_toLex, OrderDual.toDual_lt_toDual, OrderDual.toDual_inj]
  constructor
  · exact Or.imp_right (And.imp_left fun hEq => hEq ▸ lt_irrefl _)
  · rintro (hLess | ⟨hNot, hIndex⟩)
    · exact .inl hLess
    · exact (lt_or_eq_of_le (not_lt.mp hNot)).imp_right (fun hEq => ⟨hEq.symm, hIndex⟩)

theorem outranks_iff {a b : Value × Nat} (hA : a.1.IsPlaced) (hB : b.1.IsPlaced) :
    outranks a b = true ↔ key a < key b := by
  have hAgrees : a.1.agrees b.1 = (!a.1.less b.1 && !b.1.less a.1) := by
    cases hV : a.1 <;> cases hW : b.1 <;>
      simp_all [Value.agrees, Value.isComparable, Value.precedes, Value.IsPlaced, Value.isNumeric]
  rw [key_lt_iff hA hB, outranks, hAgrees]
  cases a.1.less b.1 <;> cases b.1.less a.1 <;> simp

theorem arranged_pairwise (rules : List (Value × Nat)) (hPlaced : ∀ a ∈ rules, a.1.IsPlaced) :
    (arranged rules).Pairwise (fun a b => key a ≤ key b) := by
  have hDefined : rules.any (fun rule => rule.1.isUndefined) = false := by
    rw [any_eq_false]
    exact fun a hM => by simp [(hPlaced a hM).2]
  have hSame := map_mergeSort (r := fun a b => decide (key a ≤ key b))
    (s := fun a b => !outranks b a) (f := id) (l := rules) (fun a hA b hB => by
      rw [Bool.eq_iff_iff, decide_eq_true_eq, Bool.not_eq_true', ← Bool.not_eq_true, id, id,
        outranks_iff (hPlaced b hB) (hPlaced a hA), not_lt])
  rw [map_id, map_id] at hSame
  rw [arranged, if_neg (by simp [hDefined]), ← hSame]
  exact pairwise_mergeSort_of_key (fun _ _ => decide_eq_true_iff) rules

theorem idxOf_order_lt_iff {priorities : List Value} (hPlaced : ∀ v ∈ priorities, v.IsPlaced)
    {i j : Nat} {v w : Value} (hI : priorities[i]? = some v) (hJ : priorities[j]? = some w) :
    (order priorities).idxOf i < (order priorities).idxOf j ↔
      w.less v = true ∨ v.less w = false ∧ i < j := by
  have hPerm := arranged_perm priorities.zipIdx
  have hSort := arranged_pairwise priorities.zipIdx
    (fun a hM => hPlaced a.1 (fst_mem_of_mem_zipIdx hM))
  -- a rule stands in the arrangement where its number stands in the order
  have hAt : ∀ i v, priorities[i]? = some v →
      (arranged priorities.zipIdx)[(order priorities).idxOf i]? = some (v, i) := by
    intro i v hGet
    have hM : i ∈ order priorities :=
      mem_map.mpr ⟨(v, i), hPerm.mem_iff.mpr (mem_zipIdx_iff_getElem?.mpr hGet), rfl⟩
    have hOrder : (order priorities)[(order priorities).idxOf i]? = some i := by
      simp [hM]
    rw [order, getElem?_map, Option.map_eq_some_iff] at hOrder
    rcases hOrder with ⟨a, hSome, hNumber⟩
    have hZip := mem_zipIdx_iff_getElem?.mp (hPerm.subset (mem_of_getElem? hSome))
    rw [hNumber, hGet] at hZip
    exact hSome.trans (congrArg some (Prod.ext (Option.some.inj hZip).symm hNumber))
  have hLt : ∀ i v j w, priorities[i]? = some v → priorities[j]? = some w →
      (order priorities).idxOf i < (order priorities).idxOf j → key (v, i) < key (w, j) := by
    intro i v j w hI hJ hLt
    rcases List.getElem?_eq_some_iff.mp (hAt i v hI) with ⟨hL, hV⟩
    rcases List.getElem?_eq_some_iff.mp (hAt j w hJ) with ⟨hR, hW⟩
    refine lt_of_le_of_ne ?_ (fun hEq => hLt.ne ?_)
    · rw [← hV, ← hW]
      exact pairwise_iff_getElem.mp hSort _ _ hL hR hLt
    · rw [show i = j from congrArg (fun k => (ofLex k).2) hEq]
  rw [← key_lt_iff (a := (v, i)) (b := (w, j)) (hPlaced v (mem_of_getElem? hI))
    (hPlaced w (mem_of_getElem? hJ))]
  refine ⟨hLt i v j w hI hJ, fun hKey => ?_⟩
  rcases Nat.lt_trichotomy ((order priorities).idxOf i) ((order priorities).idxOf j) with
    hLess | hEq | hMore
  · exact hLess
  · have hSame := (hAt j w hJ).symm.trans (hEq ▸ hAt i v hI)
    exact absurd (congrArg key (Option.some.inj hSame)).symm hKey.ne
  · exact absurd (hLt j w i v hJ hI hMore) hKey.not_gt

theorem ranks_perm (priorities : List Value) :
    (ranks priorities).Perm (List.range priorities.length) := by
  have hNodup : (ranks priorities).Nodup := by
    refine nodup_range.map_on (fun i hI j hJ hEq => ?_)
    exact (idxOf_inj ((order_perm _).mem_iff.mpr hI)).mp hEq
  refine (subperm_of_subset hNodup (fun r hM => ?_)).perm_of_length_le (by simp [ranks])
  rcases mem_map.mp hM with ⟨i, hI, rfl⟩
  have hLen := (order_perm priorities).length_eq
  rw [length_range] at hLen
  exact mem_range.mpr (hLen ▸ idxOf_lt_length_iff.mpr ((order_perm _).mem_iff.mpr hI))

end Ranking

end CircuitGraph
