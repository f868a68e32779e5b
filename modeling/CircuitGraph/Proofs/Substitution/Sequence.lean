import CircuitGraph.Proofs.Substitution.Locality

/-
  Substitutions one after the other.

  Substitutions are carried out one after the other, and in
  between the graph is only read.
-/

---- One Substitution ----

namespace CircuitGraph

open List

variable {K : Type}

namespace RuleSet

variable [Scalar K] {rs : RuleSet K} {p : Plan} {step : Step} {g g' : Graph K}

theorem Carries.sound (hCar : rs.Carries g p step g') (hS : g.Sound) : g'.Sound := by
  have hStart : Graph.Changed (fun _ => True) g g := ⟨hS, fun _ _ _ _ => trivial, .refl⟩
  have hKeeps : Keeps (Graph.Changed (fun _ => True) g) (rs.carryOut p) :=
    keeps_carryOut (fun _ _ _ _ _ _ => trivial) p
  exact (hKeeps.of_yields hCar.yields hStart).sound

theorem Carries.exists_substituted (hCar : rs.Carries g p step g') (hS : g.Sound)
    (hAcy : g.Acyclic) :
    ∃ rule f, rs.Finds g p.found rule f ∧ g.Substituted p.found rule step g' ∧ g'.Acyclic := by
  rcases hCar.found with ⟨rule, f, hFinds⟩
  rcases hCar.secure.exists_carryOut hS hAcy with
    ⟨s, g'', rfl, hSpl, hLay, hNone, hDone⟩
  obtain ⟨rfl, rfl⟩ := hCar.yields.unique hDone
  obtain rfl : rule = s.rule := eq_of_some hFinds.member hSpl.rule
  exact ⟨s.rule, f, hFinds, hSpl.substituted hLay, hNone⟩

/- A substitution takes the operations of the pattern and brings those of the replacement. -/
theorem Carries.exists_length_ops (hCar : rs.Carries g p step g') (hS : g.Sound)
    (hAcy : g.Acyclic) : ∃ rule ∈ rs.rules,
      g'.ops.length + rule.pattern.ops.length = g.ops.length + rule.replacement.ops.length := by
  rcases hCar.secure.exists_carryOut hS hAcy with
    ⟨s, g'', rfl, hSpl, hLay, -, hDone⟩
  obtain ⟨rfl, rfl⟩ := hCar.yields.unique hDone
  rcases hSpl.exists_numbers hLay with ⟨k, hBef, hAfter, -⟩
  exact ⟨s.rule, mem_of_getElem? hSpl.rule, by omega⟩

---- Many Substitutions ----

/- Whether matches are replaced one after the other, with the steps that are told of them. -/
inductive Performs (rs : RuleSet K) : Graph K → List (Match × Step) → Graph K → Prop where
  | done {b b' : Graph K} (unchanged : b.Unchanged b') :
      Performs rs b [] b'
  | step {b b₁ b₂ b' : Graph K} {p : Plan} {s : Step} {carried : List (Match × Step)}
      (unchanged : b.Unchanged b₁) (carries : rs.Carries b₁ p s b₂)
      (rest : Performs rs b₂ carried b') :
      Performs rs b ((p.found, s) :: carried) b'

namespace Performs

variable {b b' c c' : Graph K} {carried carried' : List (Match × Step)}

section

variable (hPerf : rs.Performs b carried b')

include hPerf

theorem sound (hS : b.Sound) : b'.Sound := by
  induction hPerf with
  | done hU => exact hS.of_alike hU.1
  | step hU hCar _ ih => exact ih (hCar.sound (hS.of_alike hU.1))

theorem edited (hC : rs.Compiled) (hS : b.Sound) (hAcy : b.Acyclic) :
    b.Edited (· ∈ ((carried.map Prod.snd).flatMap Step.touched).map Slot.toNat)
      (· ∈ ((carried.map Prod.snd).flatMap Step.removed).map Slot.toNat) b' := by
  induction hPerf with
  | done hU =>
    apply (Graph.Edited.of_alike hU.1).congr
    · simp
    · simp
  | step hU hCar _ ih =>
    have hS₁ := hS.of_alike hU.1
    have hS₂ := hCar.sound hS₁
    rcases hCar.exists_substituted hS₁ (hU.1.acyclic hAcy) with
      ⟨rule, f, hFinds, hDone, hNone⟩
    have hUse := hC.usable (mem_of_getElem? hFinds.member)
    have hFirst := hDone.edited hUse hS₁ hC hFinds hS₂
    apply ((Graph.Edited.of_alike hU.1).trans (hFirst.trans (ih hS₂ hNone))).congr
    · simp
    · simp

theorem finds (hC : rs.Compiled) (hFunnels : ∀ rule ∈ rs.rules, rule.pattern.Funnel)
    (hS : b.Sound) (hAcy : b.Acyclic) {m : Match} {rule : Rule K} {f : Nat → Nat}
    (hFinds : rs.Finds b m rule f) (hDisjoint : ∀ entry ∈ carried, ∀ n ∈ m.ids, n ∉ entry.1.ids) :
    rs.Finds b' m rule f := by
  induction hPerf with
  | done hU => exact hFinds.of_alike hU.1
  | step hU hCar _ ih =>
    have hS₁ := hS.of_alike hU.1
    have hS₂ := hCar.sound hS₁
    rcases hCar.exists_substituted hS₁ (hU.1.acyclic hAcy) with
      ⟨rule₁, f₁, hFinds₁, hDone, hNone⟩
    refine ih hS₂ hNone ?_ (fun entry hM => hDisjoint entry (mem_cons_of_mem _ hM))
    have hFunnel := hFunnels rule (mem_of_getElem? hFinds.member)
    have hFunnel₁ := hFunnels rule₁ (mem_of_getElem? hFinds₁.member)
    exact .of_disjoint hC hFinds₁ hFunnel₁ hDone hS₁ hS₂ hNone
      (hFinds.of_alike hU.1) hFunnel (hDisjoint _ mem_cons_self)

theorem agree (hPerf' : rs.Performs c carried' c') (hS : b.Sound) (hAcy : b.Acyclic)
    (hS' : c.Sound) (hAcy' : c.Acyclic) (hEss : c.essence = b.essence)
    (hSame : (carried'.map Prod.fst).map Match.plain = (carried.map Prod.fst).map Match.plain) :
    c'.essence = b'.essence ∧
      (carried'.map Prod.snd).map Step.plain = (carried.map Prod.snd).map Step.plain := by
  induction hPerf generalizing c carried' with
  | done hU =>
    cases hPerf' with
    | done hU' =>
      rw [← Graph.essence_of_alike hU.1 hS.unique, ← Graph.essence_of_alike hU'.1 hS'.unique]
      exact ⟨hEss, rfl⟩
    | step => exact nomatch hSame
  | step hU hCar _ ih =>
    cases hPerf' with
    | done => exact nomatch hSame
    | step hU' hCar' hRest' =>
      simp only [map_cons, List.cons.injEq] at hSame
      have hS₁ := hS.of_alike hU.1
      have hAcy₁ := hU.1.acyclic hAcy
      have hS₁' := hS'.of_alike hU'.1
      have hAcy₁' := hU'.1.acyclic hAcy'
      rw [Graph.essence_of_alike hU.1 hS.unique, Graph.essence_of_alike hU'.1 hS'.unique] at hEss
      rcases hCar.exists_substituted hS₁ hAcy₁ with ⟨-, -, -, -, hNone⟩
      rcases hCar'.exists_substituted hS₁' hAcy₁' with ⟨-, -, -, -, hNone'⟩
      rcases hCar.agree hCar' hS₁ hAcy₁ hS₁' hAcy₁' hEss hSame.1 with
        ⟨hEss₂, hStep⟩
      rcases ih hRest' (hCar.sound hS₁) hNone (hCar'.sound hS₁') hNone' hEss₂
        hSame.2 with ⟨hEnd, hSteps⟩
      refine ⟨hEnd, ?_⟩
      simp only [map_cons, hStep]
      rw [hSteps]

theorem length_ops_lt
    (hShrinks : ∀ rule ∈ rs.rules, rule.replacement.ops.length < rule.pattern.ops.length)
    (hS : b.Sound) (hAcy : b.Acyclic) (hSome : carried ≠ []) :
    b'.ops.length < b.ops.length := by
  have hLe : b'.ops.length + carried.length ≤ b.ops.length := by
    clear hSome
    induction hPerf with
    | done hU =>
      have hSame := congrArg List.length hU.1.ops
      simp only [length_nil]
      omega
    | step hU hCar _ ih =>
      have hS₁ := hS.of_alike hU.1
      have hS₂ := hCar.sound hS₁
      have hAcy₁ := hU.1.acyclic hAcy
      rcases hCar.exists_substituted hS₁ hAcy₁ with ⟨-, -, -, -, hNone⟩
      rcases hCar.exists_length_ops hS₁ hAcy₁ with ⟨rule, hRule, hFirst⟩
      have hRest := ih hS₂ hNone
      have hLess := hShrinks rule hRule
      have hSame := congrArg List.length hU.1.ops
      rw [length_cons]
      omega
  have hPos := length_pos_iff.mpr hSome
  omega

end

end Performs

end RuleSet

end CircuitGraph
