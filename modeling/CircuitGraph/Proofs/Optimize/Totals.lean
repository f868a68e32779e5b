import CircuitGraph.Proofs.Graph.Sums
import CircuitGraph.Proofs.Optimize.Safety
import Mathlib.Algebra.BigOperators.Group.List.Basic
import Mathlib.Tactic.Abel

/-
  Sums over the operations of a graph.

  A graph weighs as much as its operations together, and a
  container as much as its body.

  Main declarations:

  * Cost.total: the weight of a graph
  * Cost.Embeds.sumOver_eq: how a sum of scalars stands for it
  * Cost.total_carryOut: the weight after a substitution
-/

---- Totals ----

namespace CircuitGraph

open List CircuitGraph.Graph

namespace Cost

variable {K M : Type} [AddCancelCommMonoid M] {room : Nat → Nat → Prop} {weight : Kind → M}
  {g g' : Graph K}

def total (weight : Kind → M) (g : Graph K) : M :=
  g.foldWith 0 (fun g bodies =>
    (g.sortedOps.map (fun node => (valueOf? bodies node.id).getD (weight node.kind))).sum)

def share (weight : Kind → M) (node : Node (Graph K)) : M :=
  (node.body.map (total weight)).getD (weight node.kind)

theorem total_eq_sum (hI : g.Intact) (hF : g.WellFormed) :
    total weight g = (g.ops.map (share weight)).sum := by
  have hParts : g.sortedOps.map (fun node =>
      (valueOf? (g.nestedValues (total weight) 0) node.id).getD (weight node.kind)) =
      g.sortedOps.map (share weight) := by
    refine map_congr_left (fun node hN => ?_)
    rw [hI.sound.valueOf?_owned (fun _ => hF.owned) _ _ (mem_sortedOps_iff.mp hN)]
    rfl
  have hTotal : total weight g = (g.sortedOps.map (share weight)).sum := by
    rw [← hParts, total, foldWith_eq]
    rfl
  rw [hTotal, (g.sortedOps_perm.map (share weight)).sum_eq]

theorem total_essence (weight : Kind → M) (hI : g.Intact) :
    total weight g.essence = total weight g := by
  refine hI.foldWith_essence (fun g values values' hS hValues => ?_)
  rw [sortedOps_essence hS.unique, map_map]
  refine congrArg List.sum (map_congr_left (fun node _ => ?_))
  rw [Function.comp_apply, show (essenceOf node).id = node.id from rfl, hValues node.id]
  rfl

theorem total_eq_of_essence (hI : g.Intact) (hI' : g'.Intact)
    (hEss : g.essence = g'.essence) : total weight g = total weight g' := by
  rw [← total_essence weight hI, hEss, total_essence weight hI']

theorem total_eq_of_ops (hI : g.Intact) (hF : g.WellFormed) (hI' : g'.Intact)
    (hF' : g'.WellFormed) (hOps : g.ops = g'.ops) : total weight g = total weight g' := by
  rw [total_eq_sum hI hF, total_eq_sum hI' hF', hOps]

theorem sum_map_of_single {nodes : List (Node (Graph K))} (hUniq : (nodes.map Node.id).Nodup)
    {node : Node (Graph K)} (hN : node ∈ nodes) {F G : Node (Graph K) → M}
    (hOther : ∀ other ∈ nodes, other.id ≠ node.id → F other = G other) :
    (nodes.map F).sum + G node = (nodes.map G).sum + F node := by
  rcases append_of_mem hN with ⟨before, after, rfl⟩
  rw [map_append, map_cons, nodup_append, nodup_cons] at hUniq
  rcases hUniq with ⟨-, ⟨hAfter, -⟩, hBef⟩
  have hL : before.map F = before.map G := map_congr_left (fun other hM =>
    hOther other (by simp [hM]) (hBef other.id (mem_map_of_mem hM) node.id mem_cons_self))
  have hR : after.map F = after.map G := map_congr_left (fun other hM =>
    hOther other (by simp [hM]) (fun hId => hAfter (hId ▸ mem_map_of_mem hM)))
  simp only [map_append, map_cons, sum_append, sum_cons, hL, hR]
  abel

theorem total_replaceAt (weight : Kind → M) [Scalar K] [Scalar.Ordered K] {a body body' : Graph K}
    (hWk : a.Workable room g) {path : List Nat} (hB : g.bodyAt? path = some body)
    (hIn : body.Workable room body') :
    total weight (g.replaceAt path body') + total weight body =
      total weight g + total weight body' := by
  induction path generalizing a g with
  | nil =>
    obtain rfl := Option.some.inj hB
    exact add_comm _ _
  | cons n path ih =>
    rcases bodyAt?_cons_iff.mp hB with ⟨node, inner, hOp, hNested, hRest⟩
    rcases op?_eq_some hOp with ⟨hN, rfl⟩
    have hThere : g.bodyAt? [node.id] = some inner :=
      bodyAt?_cons_iff.mpr ⟨node, inner, hOp, hNested, rfl⟩
    have hDeeper := hWk.bodyAt? hThere
    have hAfter := hWk.replaceAt hB hIn
    rw [total_eq_sum hAfter.intact hAfter.formed, total_eq_sum hWk.intact hWk.formed]
    change ((g.ops.map (Graph.withBodyAt node.id path body')).map (share weight)).sum + _ = _
    rw [map_map]
    have hBef : share weight node = total weight inner := by rw [share, hNested]; rfl
    have hLater : share weight (Graph.withBodyAt node.id path body' node) =
        total weight (inner.replaceAt path body') := by
      rw [Graph.withBodyAt, if_pos rfl, share, hNested]
      rfl
    have hSums := sum_map_of_single hWk.intact.sound.unique hN
      (F := share weight ∘ Graph.withBodyAt node.id path body') (G := share weight)
      (fun other _ hOther => by rw [Function.comp_apply, Graph.withBodyAt, if_neg hOther])
    rw [Function.comp_apply, hBef, hLater] at hSums
    -- what lies outside of the operation is the same on both sides
    refine add_right_cancel (b := total weight inner) ?_
    calc _ = (g.ops.map (share weight ∘ Graph.withBodyAt node.id path body')).sum +
          total weight inner + total weight body := by abel
      _ = (g.ops.map (share weight)).sum +
          (total weight (inner.replaceAt path body') + total weight body) := by
        rw [hSums, add_assoc]
      _ = (g.ops.map (share weight)).sum + (total weight inner + total weight body') := by
        rw [ih hDeeper hRest]
      _ = _ := by abel

---- Totals after Substitutions ----

theorem sum_share_of_gates (hS : g.Sound) {nodes : List (Node (Graph K))}
    (hNodes : ∀ node ∈ nodes, node ∈ g.ops ∧ node.kind.isContainer = false) :
    (nodes.map (share weight)).sum =
      ((nodes.map Node.id).map (fun n => ((g.kindOf? n).map weight).getD 0)).sum := by
  rw [map_map]
  refine congrArg List.sum (map_congr_left (fun node hM => ?_))
  rcases hNodes node hM with ⟨hN, hGate⟩
  rw [Function.comp_apply, hS.kindOf?_id hN, share, (hS.nodes node hN).body_eq_none hGate]
  rfl

theorem share_copyOf (s : Splicing K) {node : Node (Graph K)}
    (hN : node ∈ s.rule.replacement.ops) : share weight (s.copyOf node) = share weight node := by
  unfold share Splicing.copyOf
  cases hB : node.body with
  | none => rfl
  | some body =>
    have hI := s.usable.replacement.body hN hB
    exact total_eq_of_essence hI.copy hI hI.essence_copy

theorem sum_removed {rs : RuleSet K} {p : Plan} {s : Splicing K} (hSpl : p.Splices rs s) :
    ((s.host.ops.filter (fun node => !p.keeps node.id)).map (share weight)).sum =
      total weight s.rule.pattern := by
  have hUse := s.usable
  have hPat := hUse.pattern.sound
  have hKinds : ∀ n ∈ s.rule.pattern.opIds, s.host.kindOf? (s.image n) = s.rule.pattern.kindOf? n :=
    s.occurs.kind
  have hGates : ∀ node ∈ s.host.ops.filter (fun node => !p.keeps node.id),
      node ∈ s.host.ops ∧ node.kind.isContainer = false := by
    intro node hM
    have hN := (mem_filter.mp hM).1
    refine ⟨hN, ?_⟩
    rcases mem_map.mp (hSpl.perm_removed.subset (mem_map_of_mem hM)) with ⟨n, hOp, hImage⟩
    have hKind := hKinds n hOp
    rcases Graph.mem_opIds_iff.mp hOp with ⟨source, hSrc, rfl⟩
    rw [hImage, s.sound.kindOf?_id hN, hPat.kindOf?_id hSrc] at hKind
    rw [Option.some.inj hKind]
    exact hUse.isPattern.gates source hSrc
  rw [sum_share_of_gates s.sound hGates, (hSpl.perm_removed.map _).sum_eq,
    total_eq_sum hUse.pattern hUse.patternFormed,
    ← (s.rule.pattern.sortedOps_perm.map (share weight)).sum_eq,
    sum_share_of_gates hPat (fun node hM => ⟨mem_sortedOps_iff.mp hM,
      hUse.isPattern.gates node (mem_sortedOps_iff.mp hM)⟩),
    map_id_sortedOps hPat.unique, map_map]
  refine congrArg List.sum (map_congr_left (fun n hM => ?_))
  rw [Function.comp_apply, hKinds n hM]

theorem total_carryOut [Scalar K] (weight : Kind → M) {rs : RuleSet K} {p : Plan} {a : Graph K}
    (hWk : a.Workable room g) (hWk' : a.Workable room g') (hSecure : p.Secure rs g) {step : Step}
    (hY : Yields (rs.carryOut p) g step g') :
    ∃ rule, rs.rules[step.rule]? = some rule ∧ rule.Usable ∧
      total weight g + total weight rule.replacement =
        total weight g' + total weight rule.pattern := by
  rcases hSecure.exists_carryOut hWk.intact.sound hWk.formed.acyclic with
    ⟨s, g'', rfl, hSpl, hLay, -, hDone⟩
  obtain ⟨rfl, rfl⟩ := hY.unique hDone
  refine ⟨s.rule, hSpl.rule, s.usable, ?_⟩
  have hRep : total weight s.rule.replacement = (s.rule.replacement.ops.map (share weight)).sum :=
    total_eq_sum s.usable.replacement s.usable.replacementFormed
  have hCopies : ((s.rule.replacement.sortedOps.map s.copyOf).map (share weight)).sum =
      total weight s.rule.replacement := by
    rw [hRep, ← (s.rule.replacement.sortedOps_perm.map (share weight)).sum_eq, map_map]
    refine congrArg List.sum (map_congr_left (fun node hM => ?_))
    exact share_copyOf s (mem_sortedOps_iff.mp hM)
  have hAfter : total weight g' =
      ((s.host.ops.filter (fun node => p.keeps node.id)).map (share weight)).sum +
        total weight s.rule.replacement := by
    rw [total_eq_sum hWk'.intact hWk'.formed, hLay.ops, Splicing.layout, map_append,
      sum_append, hCopies]
  have hBef : total weight s.host =
      ((s.host.ops.filter (fun node => p.keeps node.id)).map (share weight)).sum +
        total weight s.rule.pattern := by
    rw [total_eq_sum hWk.intact hWk.formed, ← sum_removed hSpl, ← sum_append, ← map_append]
    have hPerm := filter_append_perm (fun node => p.keeps node.id) s.host.ops
    exact (hPerm.symm.map (share weight)).sum_eq
  rw [hBef, hAfter]
  abel

---- Costs as Totals ----

/- Numbers that scalars stand for, with their sums as far as these are small. -/
structure Embeds [Scalar K] (value : M → K) (small : M → Prop) : Prop where
  zero : value 0 = ((0 : Nat) : K)
  add : ∀ a b, small (a + b) → value a + value b = value (a + b)
  left : ∀ a b, small (a + b) → small a

namespace Embeds

variable [Scalar K] {value : M → K} {small : M → Prop} (hEmbeds : Embeds value small)

include hEmbeds

theorem small_of_mem {values : List M} (hSmall : small values.sum) {a : M} (hM : a ∈ values) :
    small a := by
  rcases append_of_mem hM with ⟨before, after, rfl⟩
  refine hEmbeds.left a (before.sum + after.sum) ?_
  rwa [sum_append, sum_cons, add_left_comm] at hSmall

theorem addUp_eq (values : List M) (start : M) (hSmall : small (start + values.sum)) :
    addUp (values.map (fun a => .ok (value a))) (value start) =
      .ok (value (start + values.sum)) := by
  induction values generalizing start with
  | nil => simp [addUp, pure, Except.pure]
  | cons a values ih =>
    rw [sum_cons, ← add_assoc] at hSmall ⊢
    change addUp (values.map (fun a => .ok (value a))) (value start + value a) = _
    rw [hEmbeds.add start a (hEmbeds.left _ _ hSmall), ih _ hSmall]

theorem sumOver_eq (hI : g.Intact) (hF : g.WellFormed) (hSmall : small (total weight g)) :
    sumOver (fun kind _ => .ok (value (weight kind))) g = .ok (value (total weight g)) := by
  induction hF with
  | intro g hCom hAcy hOwned hBodies ih =>
    have hF : g.WellFormed := .intro g hCom hAcy hOwned hBodies
    have hSum : total weight g = (g.sortedOps.map (share weight)).sum := by
      rw [total_eq_sum hI hF, (g.sortedOps_perm.map (share weight)).sum_eq]
    rw [hSum] at hSmall ⊢
    have hParts : g.sortedOps.map (partOf (fun kind _ => .ok (value (weight kind)))) =
        (g.sortedOps.map (share weight)).map (fun a => .ok (value a)) := by
      rw [map_map]
      refine map_congr_left (fun node hN => ?_)
      have hOld := mem_sortedOps_iff.mp hN
      have hHere := hEmbeds.small_of_mem hSmall (mem_map_of_mem hN)
      rw [partOf, Function.comp_apply]
      unfold share at hHere ⊢
      cases hB : node.body with
      | none => rfl
      | some body =>
        rw [hB] at hHere
        exact ih node hOld body hB (hI.body hOld hB) hHere
    have hStart := hEmbeds.addUp_eq (g.sortedOps.map (share weight)) 0
      (by rwa [zero_add])
    rw [sumOver_eq_addUp _ hI.sound hF, hParts, ← hEmbeds.zero, hStart, zero_add]

end Embeds

variable {cost : Cost ℚ} {g : Graph ℚ} {weight : Kind → ℚ}

theorem sumOver_eq_total (hI : g.Intact) (hF : g.WellFormed) :
    sumOver (fun kind _ => .ok (weight kind)) g = .ok (total weight g) := by
  have hEmbeds : Embeds (fun a : ℚ => a) (fun _ => True) :=
    ⟨Nat.cast_zero.symm, fun _ _ _ => rfl, fun _ _ _ => trivial⟩
  exact hEmbeds.sumOver_eq hI hF trivial

theorem Standard.exists_weight (hStd : cost.Standard) (hLocal : cost.isLocal = true) :
    ∃ weight : Kind → ℚ, ∀ g, cost.eval g = sumOver (fun kind _ => .ok (weight kind)) g := by
  cases hStd with
  | gates => exact ⟨fun kind => unit kind.isGate, fun _ => rfl⟩
  | twoQubit => exact ⟨fun kind => unit (2 ≤ kind.qubits), fun _ => rfl⟩
  | weighted label one two three =>
    choose weight hWeight using exists_kindWeight one two three
    refine ⟨weight, fun g => ?_⟩
    change sumOver (fun kind _ => kindWeight (.ok one) (.ok two) (.ok three) kind) g = _
    exact congrArg (sumOver · g) (funext (fun kind => funext (fun _ => hWeight kind)))
  | depth => exact nomatch hLocal

end Cost

end CircuitGraph
