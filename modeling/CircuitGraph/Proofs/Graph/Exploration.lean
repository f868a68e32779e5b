import CircuitGraph.Proofs.Lookup
import Mathlib.Logic.Relation

/-
  What an exploration finds.

  An exploration finds members of its domain only, each once.
  What it finds is closed under steps inside the domain, and
  nothing is found that the steps do not lead to.
-/

namespace CircuitGraph

open List

variable {α : Type} {key : α → Nat} {domain : List Nat} {next : Nat → List α} {stack seen : List α}

theorem subset_explore : seen ⊆ explore key domain next stack seen := by
  fun_induction explore key domain next stack seen with
  | case1 seen => exact fun _ hM => hM
  | case2 seen a rest hNew ih => exact fun _ hM => ih (mem_cons_of_mem a hM)
  | case3 seen a rest hOld ih => exact ih

theorem mem_of_explore (hSeen : ∀ a ∈ seen, key a ∈ domain) {a : α}
    (hM : a ∈ explore key domain next stack seen) : key a ∈ domain := by
  fun_induction explore key domain next stack seen with
  | case1 seen => exact hSeen a hM
  | case2 seen b rest hNew ih =>
    exact ih (fun c hC => (mem_cons.mp hC).elim (fun hEq => hEq ▸ hNew.1) (hSeen c)) hM
  | case3 seen b rest hOld ih => exact ih hSeen hM

theorem mem_explore_of_stack {a : α} (hM : a ∈ stack) (hDomain : key a ∈ domain) :
    key a ∈ (explore key domain next stack seen).map key := by
  fun_induction explore key domain next stack seen with
  | case1 seen => simp at hM
  | case2 seen b rest hNew ih =>
    rcases mem_cons.mp hM with rfl | hRest
    · exact mem_map_of_mem (subset_explore mem_cons_self)
    · exact ih (mem_append_right _ hRest)
  | case3 seen b rest hOld ih =>
    rcases mem_cons.mp hM with rfl | hRest
    · have hSeen : key a ∈ seen.map key := by
        by_contra hNot
        exact hOld ⟨hDomain, hNot⟩
      exact map_subset key subset_explore hSeen
    · exact ih hRest

theorem explore_closed
    (hSeen : ∀ n ∈ seen.map key, ∀ b ∈ next n, key b ∈ domain → key b ∈ seen.map key ∨ b ∈ stack)
    {n : Nat} (hMem : n ∈ (explore key domain next stack seen).map key) {b : α} (hNext : b ∈ next n)
    (hDomain : key b ∈ domain) : key b ∈ (explore key domain next stack seen).map key := by
  fun_induction explore key domain next stack seen with
  | case1 seen => exact (hSeen n hMem b hNext hDomain).resolve_right (by simp)
  | case2 seen a rest hNew ih =>
    refine ih (fun m hM c hC hIn => ?_) hMem
    rcases mem_cons.mp hM with rfl | hOld
    · exact .inr (mem_append_left _ hC)
    · rcases hSeen m hOld c hC hIn with hBef | hStack
      · exact .inl (mem_cons_of_mem _ hBef)
      · rcases mem_cons.mp hStack with rfl | hRest
        · exact .inl mem_cons_self
        · exact .inr (mem_append_right _ hRest)
  | case3 seen a rest hOld ih =>
    refine ih (fun m hM c hC hIn => ?_) hMem
    rcases hSeen m hM c hC hIn with hBef | hStack
    · exact .inl hBef
    · rcases mem_cons.mp hStack with rfl | hRest
      · refine .inl (by_contra (fun hNot => hOld ⟨hIn, hNot⟩))
      · exact .inr hRest

theorem explore_induction {P : Nat → Prop} (hSeen : ∀ a ∈ seen, P (key a))
    (hStack : ∀ a ∈ stack, P (key a)) (hNext : ∀ n ∈ domain, P n → ∀ b ∈ next n, P (key b)) {a : α}
    (hM : a ∈ explore key domain next stack seen) : P (key a) := by
  fun_induction explore key domain next stack seen with
  | case1 seen => exact hSeen a hM
  | case2 seen b rest hNew ih =>
    have hHead := hStack b mem_cons_self
    refine ih (fun c hC => ?_) (fun c hC => ?_) hM
    · exact (mem_cons.mp hC).elim (fun hEq => hEq ▸ hHead) (hSeen c)
    · rcases mem_append.mp hC with hStep | hRest
      · exact hNext _ hNew.1 hHead c hStep
      · exact hStack c (mem_cons_of_mem _ hRest)
  | case3 seen b rest hOld ih =>
    exact ih hSeen (fun c hC => hStack c (mem_cons_of_mem _ hC)) hM

end CircuitGraph
