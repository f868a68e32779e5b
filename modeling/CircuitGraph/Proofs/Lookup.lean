import CircuitGraph.Graph.Order
import Mathlib.Data.List.Lex
import Mathlib.Data.List.Nodup
import Mathlib.Order.Lattice

/-
  Look-ups by key, and lists of numbers in ascending order.
-/

---- Look-ups by Key ----

namespace CircuitGraph

open List

variable {α κ : Type}
variable {key : α → κ} {xs : List α} {a : α} {values : List (Nat × α)} {n : Nat} {ns : List Nat}

theorem find?_key_eq_some_iff [BEq κ] [LawfulBEq κ] (hKeys : (xs.map key).Nodup) {k : κ} :
    xs.find? (fun x => key x == k) = some a ↔ a ∈ xs ∧ key a = k := by
  constructor
  · intro hFnd
    exact ⟨mem_of_find?_eq_some hFnd, by simpa using find?_some hFnd⟩
  · rintro ⟨hM, rfl⟩
    induction xs with
    | nil => simp at hM
    | cons x xs ih =>
      rw [map_cons, nodup_cons] at hKeys
      rcases mem_cons.mp hM with rfl | hTail
      · simp
      · have hNe : key x ≠ key a := by
          intro hEq
          exact hKeys.1 (hEq ▸ mem_map_of_mem hTail)
        rw [find?_cons_of_neg (by simpa using hNe)]
        exact ih hKeys.2 hTail

theorem isSome_find?_key_iff [BEq κ] [LawfulBEq κ] {k : κ} :
    (xs.find? (fun x => key x == k)).isSome ↔ k ∈ xs.map key := by
  rw [find?_isSome]
  constructor
  · rintro ⟨x, hM, hKey⟩
    exact mem_map.mpr ⟨x, hM, by simpa using hKey⟩
  · intro hM
    rcases mem_map.mp hM with ⟨x, hM, hKey⟩
    exact ⟨x, hM, by simpa using hKey⟩

theorem eq_of_key_eq (hKeys : (xs.map key).Nodup) {b : α} (hL : a ∈ xs) (hR : b ∈ xs)
    (hKey : key a = key b) : a = b :=
  inj_on_of_nodup_map hKeys hL hR hKey

theorem eq_singleton_of_nodup (hNodup : xs.Nodup) (hM : a ∈ xs) (hAll : ∀ x ∈ xs, x = a) :
    xs = [a] := by
  have hEq := eq_replicate_of_mem hAll
  rw [hEq, nodup_replicate] at hNodup
  have hOne : xs.length = 1 := by
    have := length_pos_of_mem hM
    omega
  rw [hEq, hOne]
  rfl

theorem length_le_one_of_nodup (hNodup : xs.Nodup)
    (hAll : ∀ a ∈ xs, ∀ b ∈ xs, a = b) : xs.length ≤ 1 := by
  cases xs with
  | nil => exact Nat.zero_le _
  | cons a xs =>
    rw [eq_singleton_of_nodup hNodup mem_cons_self (fun b hM => hAll b hM a mem_cons_self)]
    exact Nat.le_refl _

theorem length_filterMap_range {α : Type} {f : Nat → Option α} {k : Nat}
    (hAll : ∀ i < k, (f i).isSome) : ((List.range k).filterMap f).length = k := by
  induction k with
  | zero => rfl
  | succ k ih =>
    rcases Option.isSome_iff_exists.mp (hAll k (Nat.lt_succ_self k)) with ⟨a, hLast⟩
    rw [range_succ, filterMap_append, length_append,
      ih (fun i hLt => hAll i (Nat.lt_succ_of_lt hLt))]
    simp [hLast]

theorem getElem?_filterMap_range {α : Type} {f : Nat → Option α} {k : Nat}
    (hAll : ∀ i < k, (f i).isSome) {i : Nat} (hLt : i < k) :
    ((List.range k).filterMap f)[i]? = f i := by
  induction k with
  | zero => omega
  | succ k ih =>
    have hBef : ∀ i < k, (f i).isSome := fun i hLt => hAll i (Nat.lt_succ_of_lt hLt)
    have hLen := length_filterMap_range hBef
    rcases Option.isSome_iff_exists.mp (hAll k (Nat.lt_succ_self k)) with ⟨a, hLast⟩
    rw [range_succ, filterMap_append]
    rcases Nat.lt_succ_iff_lt_or_eq.mp hLt with hEarlier | rfl
    · rw [getElem?_append_left (by omega)]
      exact ih hBef hEarlier
    · rw [getElem?_append_right (by omega), hLen]
      simp [hLast]

namespace Graph

theorem valueOf?_eq_some_iff (hKeys : (values.map Prod.fst).Nodup) :
    valueOf? values n = some a ↔ (n, a) ∈ values := by
  rw [valueOf?, Option.map_eq_some_iff]
  constructor
  · rintro ⟨⟨m, b⟩, hFnd, rfl⟩
    rcases (find?_key_eq_some_iff hKeys).mp hFnd with ⟨hM, rfl⟩
    exact hM
  · intro hM
    exact ⟨(n, a), (find?_key_eq_some_iff hKeys).mpr ⟨hM, rfl⟩, rfl⟩

theorem mem_of_valueOf?_eq_some (hValue : valueOf? values n = some a) : (n, a) ∈ values := by
  rcases Option.map_eq_some_iff.mp hValue with ⟨⟨m, b⟩, hFnd, rfl⟩
  have hKey : m = n := by simpa using find?_some hFnd
  exact hKey ▸ mem_of_find?_eq_some hFnd

theorem isSome_valueOf?_iff : (valueOf? values n).isSome ↔ n ∈ values.map Prod.fst := by
  rw [valueOf?, Option.isSome_map]
  exact isSome_find?_key_iff

theorem valueOf?_eq_none_iff : valueOf? values n = none ↔ n ∉ values.map Prod.fst := by
  rw [← isSome_valueOf?_iff, Option.not_isSome_iff_eq_none]

theorem valueOf?_append (left right : List (Nat × α)) (n : Nat) :
    valueOf? (left ++ right) n = (valueOf? left n).or (valueOf? right n) := by
  simp only [valueOf?, find?_append]
  cases left.find? (fun entry => entry.1 == n) <;> rfl

theorem valueOf?_filter (values : List (Nat × α)) (n m : Nat) :
    valueOf? (values.filter (fun entry => entry.1 != n)) m =
      if m = n then none else valueOf? values m := by
  split
  · rename_i hEq
    rw [valueOf?_eq_none_iff, hEq]
    simp
  · rename_i hNe
    rw [valueOf?, valueOf?, find?_filter]
    congr 2
    funext entry
    by_cases hKey : entry.1 = m <;> simp [hKey, hNe]

end Graph

---- Ascending Lists ----

theorem mem_insertId {m : Nat} : m ∈ insertId n ns ↔ m = n ∨ m ∈ ns := by
  induction ns with
  | nil => simp [insertId]
  | cons k ks ih =>
    unfold insertId
    split
    · simp
    · split
      · rename_i _ hEq
        subst hEq
        simp
      · simp only [mem_cons, ih]
        tauto

theorem insertId_pairwise (hSort : ns.Pairwise (· < ·)) : (insertId n ns).Pairwise (· < ·) := by
  induction ns with
  | nil => simp [insertId]
  | cons k ks ih =>
    rw [pairwise_cons] at hSort
    unfold insertId
    split
    · rename_i hLt
      refine pairwise_cons.mpr ⟨?_, pairwise_cons.mpr hSort⟩
      intro m hM
      rcases mem_cons.mp hM with rfl | hTail
      · exact hLt
      · exact Nat.lt_trans hLt (hSort.1 m hTail)
    · split
      · exact pairwise_cons.mpr hSort
      · refine pairwise_cons.mpr ⟨?_, ih hSort.2⟩
        intro m hM
        rcases mem_insertId.mp hM with rfl | hTail
        · omega
        · exact hSort.1 m hTail

@[simp] theorem mem_sortIds {m : Nat} : m ∈ sortIds ns ↔ m ∈ ns := by
  induction ns with
  | nil => simp [sortIds]
  | cons n ns ih =>
    rw [sortIds, foldr_cons, ← sortIds, mem_insertId, ih, mem_cons]

theorem sortIds_pairwise (ns : List Nat) : (sortIds ns).Pairwise (· < ·) := by
  induction ns with
  | nil => simp [sortIds]
  | cons n ns ih =>
    rw [sortIds, foldr_cons, ← sortIds]
    exact insertId_pairwise ih

theorem sortIds_nodup (ns : List Nat) : (sortIds ns).Nodup :=
  (sortIds_pairwise ns).imp (fun hLt => Nat.ne_of_lt hLt)

theorem sortIds_of_pairwise (hAsc : ns.Pairwise (· < ·)) : sortIds ns = ns := by
  induction ns with
  | nil => rfl
  | cons n ns ih =>
    rw [pairwise_cons] at hAsc
    rw [sortIds, foldr_cons, ← sortIds, ih hAsc.2]
    cases ns with
    | nil => rfl
    | cons m ms => rw [insertId, if_pos (hAsc.1 m mem_cons_self)]

---- Orders by Key ----

section

variable [LinearOrder κ] {le : α → α → Bool} (hLe : ∀ a b, le a b = true ↔ key a ≤ key b)

include hLe

theorem trans_of_key (a b c : α) (hL : le a b = true) (hR : le b c = true) : le a c = true :=
  (hLe a c).mpr (((hLe a b).mp hL).trans ((hLe b c).mp hR))

theorem total_of_key (a b : α) : (le a b || le b a) = true :=
  Bool.or_eq_true_iff.mpr ((le_total (key a) (key b)).imp (hLe a b).mpr (hLe b a).mpr)

theorem pairwise_mergeSort_of_key (xs : List α) :
    (xs.mergeSort le).Pairwise (fun a b => key a ≤ key b) :=
  (pairwise_mergeSort (trans_of_key hLe) (total_of_key hLe) xs).imp (hLe _ _).mp

end

theorem idsBefore_iff {ms ns : List Nat} : idsBefore ms ns = true ↔ ms ≤ ns := by
  rw [← not_lt]
  induction ms generalizing ns with
  | nil => simp [idsBefore]
  | cons m ms ih =>
    cases ns with
    | nil => simp [idsBefore]
    | cons n ns =>
      simp only [idsBefore, cons_lt_cons_iff, Bool.or_eq_true, decide_eq_true_eq,
        Bool.and_eq_true, beq_iff_eq, ih]
      constructor
      · rintro (hLess | ⟨hEq, hRest⟩) (hMore | ⟨hSame, hMore⟩)
        · omega
        · omega
        · omega
        · exact hRest hMore
      · intro hNot
        rcases Nat.lt_trichotomy m n with hLess | rfl | hMore
        · exact .inl hLess
        · exact .inr ⟨rfl, fun hMore => hNot (.inr ⟨rfl, hMore⟩)⟩
        · exact absurd (.inl hMore) hNot

---- Slots ----

namespace Slot

@[simp] theorem covers_iff {slots : List Slot} : covers slots n = true ↔ n ∈ slots.map toNat := by
  simp [covers]

@[simp] theorem toNat_among (slots : List Slot) (n : Nat) : (among slots n).toNat = n := by
  unfold among
  cases hFnd : slots.find? (fun s => s.toNat == n) with
  | none => rfl
  | some s => simpa using find?_some hFnd

end Slot

@[simp] theorem map_toNat_sortSlots (slots : List Slot) :
    (sortSlots slots).map Slot.toNat = sortIds (slots.map Slot.toNat) := by
  simp [sortSlots, Function.comp_def]

end CircuitGraph
