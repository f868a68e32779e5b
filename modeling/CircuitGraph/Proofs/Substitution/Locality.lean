import CircuitGraph.Proofs.Match.Funnel
import CircuitGraph.Proofs.Substitution.Account
import CircuitGraph.Proofs.Substitution.Agreement

/-
  How far the effect of a substitution reaches.

  A substitution leaves operations that it does not touch as
  they were, with all their wires.
-/

---- The Boundary of a Match ----

namespace CircuitGraph

open List

variable {a d : Nat × Nat}

namespace RuleSet.Names

variable {K : Type} {rs : RuleSet K} {m : Match} {rule : Rule K} {f : Nat → Nat} {g : Graph K}

theorem source_iff (hNames : rs.Names m rule f) (hUse : rule.Usable) {i : Nat} :
    m.Source g i a ↔ ∃ n ∈ rule.pattern.opIds, ∃ j, rule.pattern.Wired (inputId, i) (n, j) ∧
      g.Wired a (f n, j) := by
  have hLen : m.inputs.length = rule.pattern.inputs.length := by
    simpa [Match.places, Graph.imageBoundary] using congrArg (fun x => x.1.length) hNames.places
  have hPlaces := congrArg Prod.fst hNames.places
  constructor
  · intro hSrc
    rcases hSrc with ⟨pins, pin, hPins, hM, hW⟩
    have hLt : i < rule.pattern.inputs.length := hLen ▸ (lt_of_getElem? hPins)
    rcases hUse.isPattern.exists_inputPin hPlaces hLt with
      ⟨q, pin', hTargets, hN, hPins', hPlace⟩
    rw [hPins, Option.some.injEq] at hPins'
    rw [hPins', mem_singleton] at hM
    refine ⟨q.node, hN, q.index, Graph.wired_iff_mem_targets.mpr ⟨q, ?_, rfl⟩, ?_⟩
    · rw [hTargets]
      exact mem_singleton_self q
    · rw [hM, hPlace] at hW
      exact hW
  · intro hFed
    rcases hFed with ⟨n, -, j, hInput, hW⟩
    have hLt : i < rule.pattern.inputs.length := by
      rcases hUse.pattern.sound.wired_types hInput with ⟨t, hType, -⟩
      simpa [Graph.outType?] using (lt_of_getElem? hType)
    rcases hUse.isPattern.exists_inputPin hPlaces hLt with ⟨q, pin, hTargets, -, hPins, hPlace⟩
    rcases Graph.wired_iff_mem_targets.mp hInput with ⟨q', hM, hPlace'⟩
    rw [hTargets, mem_singleton] at hM
    refine ⟨[pin], pin, hPins, mem_singleton_self pin, ?_⟩
    rw [hPlace, imagePlace_of_place (hM ▸ hPlace')]
    exact hW

theorem consumer_iff (hNames : rs.Names m rule f) (hUse : rule.Usable) {k : Nat} :
    m.Consumer g k d ↔ ∃ n ∈ rule.pattern.opIds, ∃ i, rule.pattern.Wired (n, i) (outputId, k) ∧
        g.Wired (f n, i) d ∧ d.1 ∉ m.ids := by
  have hS := hUse.pattern.sound
  have hPlaces := congrArg Prod.snd hNames.places
  have hLen := hUse.isPattern.length_outputPins hPlaces
  constructor
  · intro hConsumer
    rcases hConsumer with ⟨pin, hPin, hW, hOut⟩
    have hLt : k < rule.pattern.outputs.length := hLen ▸ (lt_of_getElem? hPin)
    rcases hUse.isPattern.exists_outputPin hPlaces hLt with
      ⟨q, pin', hSrc, hN, hPin', hPlace⟩
    rw [hPin, Option.some.injEq] at hPin'
    rw [hPin', hPlace] at hW
    exact ⟨q.node, hN, q.index, hS.wired_iff_source?.mpr ⟨q, hSrc, rfl⟩, hW, hOut⟩
  · intro hFeeds
    rcases hFeeds with ⟨n, -, i, hOutp, hW, hOut⟩
    have hLt : k < rule.pattern.outputs.length := by
      rcases hS.wired_types hOutp with ⟨t, -, hType⟩
      simpa [Graph.inType?] using (lt_of_getElem? hType)
    rcases hUse.isPattern.exists_outputPin hPlaces hLt with ⟨q, pin, hSrc, -, hPin, hPlace⟩
    rcases hS.wired_iff_source?.mp hOutp with ⟨q', hSrc', hPlace'⟩
    rw [hSrc, Option.some.injEq] at hSrc'
    refine ⟨pin, hPin, ?_, hOut⟩
    rw [hPlace, imagePlace_of_place (hSrc' ▸ hPlace')]
    exact hW

end RuleSet.Names

---- Edited Graphs ----

variable {K : Type}

namespace Graph

/-
  Whether a graph comes from another one by edits that remove
  some operations and touch some: the others stay as they
  were, with all their wires.
-/
structure Edited (g : Graph K) (touched removed : Nat → Prop) (g' : Graph K) : Prop where
  later : g.nextId ≤ g'.nextId
  fresh : ∀ n ∈ g'.opIds, n ∈ g.opIds ∨ g.nextId ≤ n
  gone : ∀ n, removed n → n < g'.nextId ∧ n ∉ g'.opIds
  kept : ∀ n ∈ g.opIds, ¬ removed n → n ∈ g'.opIds
  old : ∀ n ∈ g'.opIds, ¬ touched n → n ∈ g.opIds
  kind : ∀ n ∈ g'.opIds, ¬ touched n → g'.kindOf? n = g.kindOf? n
  params : ∀ n ∈ g'.opIds, ¬ touched n → g'.paramsOf n = g.paramsOf n
  outgoing : ∀ a d, a.1 ∈ g'.opIds → ¬ touched a.1 → (g'.Wired a d ↔ g.Wired a d)
  incoming : ∀ a d, d.1 ∈ g'.opIds → ¬ touched d.1 → (g'.Wired a d ↔ g.Wired a d)

namespace Edited

variable {g g₁ g' : Graph K} {touched touched' removed removed' : Nat → Prop}

theorem of_alike (hA : g.Alike g') : g.Edited (fun _ => False) (fun _ => False) g' := by
  have hSame := hA.resembles
  constructor
  · rw [hA.nextId]
  · intro n hM
    rw [hSame.opIds] at hM
    exact .inl hM
  · exact fun n hNever => hNever.elim
  · intro n hM _
    rwa [hSame.opIds]
  · intro n hM _
    rwa [← hSame.opIds]
  · intro n _ _
    rw [hSame.kinds]
  · intro n _ _
    rw [hSame.params]
  · intro a d _ _
    exact hA.wired_iff
  · intro a d _ _
    exact hA.wired_iff

theorem trans (hL : g.Edited touched removed g₁) (hR : g₁.Edited touched' removed' g') :
    g.Edited (fun n => touched n ∨ touched' n) (fun n => removed n ∨ removed' n) g' := by
  have hLater := hR.later
  constructor
  · exact hL.later.trans hLater
  · intro n hM
    rcases hR.fresh n hM with hOld | hNew
    · exact hL.fresh n hOld
    · exact .inr (hL.later.trans hNew)
  · intro n hRemoved
    rcases hRemoved with hFirst | hSecond
    · rcases hL.gone n hFirst with ⟨hIssued, hOut⟩
      refine ⟨by omega, fun hM => ?_⟩
      rcases hR.fresh n hM with hOld | hNew
      · exact hOut hOld
      · omega
    · exact hR.gone n hSecond
  · intro n hM hKeep
    rw [not_or] at hKeep
    exact hR.kept n (hL.kept n hM hKeep.1) hKeep.2
  · intro n hM hFree
    rw [not_or] at hFree
    exact hL.old n (hR.old n hM hFree.2) hFree.1
  · intro n hM hFree
    rw [not_or] at hFree
    rw [hR.kind n hM hFree.2, hL.kind n (hR.old n hM hFree.2) hFree.1]
  · intro n hM hFree
    rw [not_or] at hFree
    rw [hR.params n hM hFree.2, hL.params n (hR.old n hM hFree.2) hFree.1]
  · intro a d hM hFree
    rw [not_or] at hFree
    rw [hR.outgoing a d hM hFree.2, hL.outgoing a d (hR.old a.1 hM hFree.2) hFree.1]
  · intro a d hM hFree
    rw [not_or] at hFree
    rw [hR.incoming a d hM hFree.2, hL.incoming a d (hR.old d.1 hM hFree.2) hFree.1]

theorem congr (hEdited : g.Edited touched removed g') (hTouched : ∀ n, touched n ↔ touched' n)
    (hRemoved : ∀ n, removed n ↔ removed' n) : g.Edited touched' removed' g' := by
  obtain rfl : touched = touched' := funext (fun n => propext (hTouched n))
  obtain rfl : removed = removed' := funext (fun n => propext (hRemoved n))
  exact hEdited

end Edited

namespace Substituted

variable {g g' : Graph K} {m : Match} {rule : Rule K} {step : Step}

theorem touched_copyId (hDone : g.Substituted m rule step g') (hS : g.Sound) {n : Nat}
    (hM : n ∈ rule.replacement.opIds) (hUniq : (rule.replacement.ops.map Node.id).Nodup) :
    g.copyId rule.replacement n ∈ step.touched.map Slot.toNat := by
  have hStarted := hS.started
  have hLen : rule.replacement.opIds.length = rule.replacement.ops.length := by
    rw [← map_id_sortedOps hUniq, length_map, (sortedOps_perm _).length_eq]
  have hIndex := idxOf_lt_length_of_mem hM
  rw [hDone.touched, hDone.inserted]
  refine ⟨?_, ?_, .inl ?_⟩
  · rw [copyId, inputId]
    rw [outputId] at hStarted
    omega
  · rw [copyId, outputId]
    rw [outputId] at hStarted
    omega
  · exact mem_map.mpr ⟨_, mem_range.mpr (hLen ▸ hIndex), rfl⟩

section

variable (hDone : g.Substituted m rule step g') (hUse : rule.Usable) (hS : g.Sound)

include hDone hUse hS

theorem exists_untouched {n : Nat} (hM : n ∈ g'.opIds) (hFree : n ∉ step.touched.map Slot.toNat) :
    ∃ node ∈ g.ops, node ∈ g'.ops ∧ node.id = n ∧ n ∉ m.ids := by
  rcases mem_opIds_iff.mp hM with ⟨node, hN, rfl⟩
  rcases (hDone.ops node).mp hN with ⟨hThere, hOut⟩ | ⟨r, hR, rfl⟩
  · exact ⟨node, hThere, hN, rfl, hOut⟩
  · exact absurd (hDone.touched_copyId hS (mem_opIds_of_mem hR) hUse.replacement.sound.unique) hFree

theorem touched_of_startsAt {x y : Nat × Nat} (hW : rule.replacement.Wired x y)
    (hStart : g.StartsAt rule.replacement m x a) (hNe : a.1 ≠ inputId ∧ a.1 ≠ outputId) :
    a.1 ∈ step.touched.map Slot.toNat := by
  have hRep := hUse.replacement.sound
  by_cases hInput : x.1 = inputId
  · rw [StartsAt, if_pos hInput] at hStart
    exact (hDone.touched a.1).mpr ⟨hNe.1, hNe.2, .inr (.inl ⟨x.2, a, hStart, rfl⟩)⟩
  · rw [StartsAt, if_neg hInput] at hStart
    rw [hStart]
    exact hDone.touched_copyId hS ((hRep.edge_source hW.edge).resolve_left hInput) hRep.unique

theorem touched_of_endsAt {x y : Nat × Nat} (hW : rule.replacement.Wired x y)
    (hEnd : g.EndsAt rule.replacement m y d) (hNe : d.1 ≠ inputId ∧ d.1 ≠ outputId) :
    d.1 ∈ step.touched.map Slot.toNat := by
  have hRep := hUse.replacement.sound
  by_cases hOutp : y.1 = outputId
  · rw [EndsAt, if_pos hOutp] at hEnd
    exact (hDone.touched d.1).mpr ⟨hNe.1, hNe.2, .inr (.inr ⟨y.2, d, hEnd, rfl⟩)⟩
  · rw [EndsAt, if_neg hOutp] at hEnd
    rw [hEnd]
    exact hDone.touched_copyId hS ((hRep.edge_target hW.edge).resolve_left hOutp) hRep.unique

variable {rs : RuleSet K} (hC : rs.Compiled) {f : Nat → Nat} (hFinds : rs.Finds g m rule f)

include hC hFinds

omit hUse in
theorem notMem_opIds_of_match {n : Nat} (hM : n ∈ m.ids) : n < g.nextId ∧ n ∉ g'.opIds := by
  rcases (hFinds.toNames.stands hC).mem_ids_iff.mp hM with ⟨k, hK, rfl⟩
  rcases mem_opIds_iff.mp (hFinds.occurs.operation k hK) with ⟨node, hN, hId⟩
  have hIssued := hS.issued node hN
  rw [hId] at hIssued
  refine ⟨hIssued, fun hStays => ?_⟩
  rcases mem_opIds_iff.mp hStays with ⟨node', hN', hId'⟩
  rcases (hDone.ops node').mp hN' with ⟨-, hOut⟩ | ⟨r, -, hCopy⟩
  · exact hOut (hId' ▸ hM)
  · rw [hCopy] at hId'
    have hNew : g.nextId ≤ f k := hId' ▸ Nat.le_add_right _ _
    omega

theorem touched_of_wired_into (hW : g.Wired a d) (hOut : a.1 ∉ m.ids)
    (hIn : d.1 ∈ m.ids) (hNe : a.1 ≠ inputId ∧ a.1 ≠ outputId) :
    a.1 ∈ step.touched.map Slot.toNat := by
  have hIns := fun n => (hFinds.toNames.stands hC).mem_ids_iff (n := n)
  rcases (hIns d.1).mp hIn with ⟨n, hN, hImage⟩
  have hInto : g.Wired a (f n, d.2) := hImage ▸ hW
  rcases hUse.exists_input hS hFinds.occurs hN hInto (mt (hIns a.1).mpr hOut) with
    ⟨i, hInput⟩
  have hSrc := (hFinds.toNames.source_iff hUse).mpr ⟨n, hN, d.2, hInput, hInto⟩
  exact (hDone.touched a.1).mpr ⟨hNe.1, hNe.2, .inr (.inl ⟨i, a, hSrc, rfl⟩)⟩

omit hS in
theorem touched_of_wired_from (hW : g.Wired a d) (hIn : a.1 ∈ m.ids)
    (hOut : d.1 ∉ m.ids) (hNe : d.1 ≠ inputId ∧ d.1 ≠ outputId) :
    d.1 ∈ step.touched.map Slot.toNat := by
  have hIns := fun n => (hFinds.toNames.stands hC).mem_ids_iff (n := n)
  rcases (hIns a.1).mp hIn with ⟨n, hN, hImage⟩
  have hFrom : g.Wired (f n, a.2) d := hImage ▸ hW
  rcases hFinds.occurs.exists_output hN hFrom (mt (hIns d.1).mpr hOut) with ⟨j, hOutp⟩
  have hConsumer := (hFinds.toNames.consumer_iff hUse).mpr ⟨n, hN, a.2, hOutp, hFrom, hOut⟩
  exact (hDone.touched d.1).mpr ⟨hNe.1, hNe.2, .inr (.inr ⟨j, d, hConsumer, rfl⟩)⟩

theorem edited (hS' : g'.Sound) :
    g.Edited (· ∈ step.touched.map Slot.toNat) (· ∈ step.removed.map Slot.toNat) g' := by
  have hIds : step.removed.map Slot.toNat = m.ids := by
    rw [hDone.removed]
    rfl
  constructor
  · rw [hDone.nextId]
    omega
  · intro n hM
    rcases mem_opIds_iff.mp hM with ⟨node, hN, rfl⟩
    rcases (hDone.ops node).mp hN with ⟨hThere, -⟩ | ⟨r, -, rfl⟩
    · exact .inl (mem_opIds_of_mem hThere)
    · exact .inr (Nat.le_add_right _ _)
  · intro n hM
    rw [hIds] at hM
    rcases hDone.notMem_opIds_of_match hS hC hFinds hM with ⟨hOld, hGone⟩
    exact ⟨by rw [hDone.nextId]; omega, hGone⟩
  · intro n hM hKeep
    rw [hIds] at hKeep
    rcases mem_opIds_iff.mp hM with ⟨node, hN, rfl⟩
    exact mem_opIds_iff.mpr ⟨node, (hDone.ops node).mpr (.inl ⟨hN, hKeep⟩), rfl⟩
  · intro n hM hFree
    rcases hDone.exists_untouched hUse hS hM hFree with ⟨node, hN, -, hId, -⟩
    exact mem_opIds_iff.mpr ⟨node, hN, hId⟩
  · intro n hM hFree
    rcases hDone.exists_untouched hUse hS hM hFree with ⟨node, hN, hN', rfl, -⟩
    rw [hS.kindOf?_id hN, hS'.kindOf?_id hN']
  · intro n hM hFree
    rcases hDone.exists_untouched hUse hS hM hFree with ⟨node, hN, hN', rfl, -⟩
    rw [hS.paramsOf_id hN, hS'.paramsOf_id hN']
  · intro a d hM hFree
    have hNe := hS'.ne_boundary hM
    rcases hDone.exists_untouched hUse hS hM hFree with ⟨-, -, -, -, hOut⟩
    rw [hDone.wires]
    constructor
    · rintro (⟨hW, -⟩ | ⟨x, y, hW, hStart, -⟩)
      · exact hW
      · exact absurd (hDone.touched_of_startsAt hUse hS hW hStart hNe) hFree
    · exact fun hW => .inl ⟨hW, hOut, fun hIn => hFree
        (hDone.touched_of_wired_into hUse hS hC hFinds hW hOut hIn hNe)⟩
  · intro a d hM hFree
    have hNe := hS'.ne_boundary hM
    rcases hDone.exists_untouched hUse hS hM hFree with ⟨-, -, -, -, hOut⟩
    rw [hDone.wires]
    constructor
    · rintro (⟨hW, -⟩ | ⟨x, y, hW, -, hEnd⟩)
      · exact hW
      · exact absurd (hDone.touched_of_endsAt hUse hS hW hEnd hNe) hFree
    · exact fun hW => .inl ⟨hW, fun hIn => hFree
        (hDone.touched_of_wired_from hUse hC hFinds hW hIn hOut hNe), hOut⟩

end

end Substituted

end Graph

---- Disjoint Matches ----

namespace RuleSet

variable {rs : RuleSet K} {g g' : Graph K} {m other : Match} {rule : Rule K} {step : Step}
  {f : Nat → Nat}

theorem copyId_notMem (hS : g.Sound) (replacement : Graph K) (n : Nat) :
    g.copyId replacement n ∉ g.opIds := by
  intro hM
  rcases Graph.mem_opIds_iff.mp hM with ⟨node, hN, hId⟩
  have hIssued := hS.issued node hN
  rw [hId, Graph.copyId] at hIssued
  omega

section

variable (hC : rs.Compiled) (hFinds : rs.Finds g m rule f) (hFunnel : rule.pattern.Funnel)
  (hDone : g.Substituted m rule step g') (hS : g.Sound)

include hC hFinds hFunnel hDone hS

/-
  What feeds an input of the other match feeds it from outside
  also after the substitution: what now feeds it through the
  replacement could feed it through the match before.
-/
theorem fedOutside_of_disjoint {rule' : Rule K} {f' : Nat → Nat}
    (hOcc : rule'.pattern.Occurs g f') (hConv : g.Convex (rule'.pattern.InImage f'))
    (hApart : ∀ n, rule'.pattern.InImage f' n → n ∉ m.ids) : rule'.pattern.FedOutside g' f' := by
  rcases hFinds.exists_pattern hC with ⟨-, -, hUse, -, -⟩
  have hIns : ∀ n, n ∈ m.ids ↔ rule.pattern.InImage f n :=
    fun n => (hFinds.toNames.stands hC).mem_ids_iff
  intro i k hK j hInput
  have hFree : f' k ∉ m.ids := hApart _ ⟨k, hK, rfl⟩
  rcases hOcc.fed i k hK j hInput with ⟨src, hW, hOut⟩
  by_cases hIn : src.1 ∈ m.ids
  · rcases (hIns src.1).mp hIn with ⟨n, hN, hImage⟩
    have hLeaves : g.Wired (f n, src.2) (f' k, j) := hImage ▸ hW
    rcases hFinds.occurs.exists_output hN hLeaves (mt (hIns _).mpr hFree) with ⟨o, hOutp⟩
    have hConsumer : m.Consumer g o (f' k, j) :=
      (hFinds.toNames.consumer_iff hUse).mpr ⟨n, hN, src.2, hOutp, hLeaves, hFree⟩
    -- the replacement feeds this output too
    have hFed : ∃ x, rule.replacement.Wired x (outputId, o) := by
      rcases hUse.pattern.sound.wired_types hOutp with ⟨t, -, hType⟩
      apply hUse.replacementFormed.complete.fed (outputId, o) t
      simpa [Graph.inType?, hUse.outputs] using hType
    rcases hFed with ⟨x, hX⟩
    have hEnds : g.EndsAt rule.replacement m (outputId, o) (f' k, j) := by
      rw [Graph.EndsAt, if_pos rfl]
      exact hConsumer
    by_cases hPasses : x.1 = inputId
    · have hLt : x.2 < rule.replacement.inputs.length := by
        rcases hUse.replacement.sound.wired_types hX with ⟨t, hType, -⟩
        rw [Graph.outType?, hPasses, Graph.signatureOf_inputId] at hType
        exact lt_of_getElem? hType
      rcases hDone.sources x.2 hLt with ⟨a, -, hOnly⟩
      have hSrc : m.Source g x.2 a := (hOnly a).mpr rfl
      refine ⟨a, (hDone.wires _ _).mpr (.inr ⟨x, _, hX, ?_, hEnds⟩), fun hBack => ?_⟩
      · rw [Graph.StartsAt, if_pos hPasses]
        exact hSrc
      · -- a path would leave the other match, pass through this one and come back
        rcases (hFinds.toNames.source_iff hUse).mp hSrc with ⟨n', hN', j', hEntry, hEnters⟩
        have hThrough := hFinds.occurs.reflTransGen hUse.pattern.sound hN' hN
          (hFunnel n' hN' n hN ⟨x.2, j', hEntry⟩ ⟨src.2, o, hOutp⟩)
        refine hConv a.1 (f n') (f' k) hBack (fun hThere => hApart _ hThere ?_) ⟨k, hK, rfl⟩
          (.single hEnters.edge) (.tail' hThrough hLeaves.edge)
        exact (hIns _).mpr ⟨n', hN', rfl⟩
    · refine ⟨(g.copyId rule.replacement x.1, x.2),
        (hDone.wires _ _).mpr (.inr ⟨x, _, hX, ?_, hEnds⟩), ?_⟩
      · rw [Graph.StartsAt, if_neg hPasses]
      · rintro ⟨n', hN', hCopy⟩
        apply copyId_notMem hS rule.replacement x.1
        rw [← show f' n' = g.copyId rule.replacement x.1 from hCopy]
        exact hOcc.operation n' hN'
  · exact ⟨src, (hDone.wires _ _).mpr (.inl ⟨hW, hIn, hFree⟩), hOut⟩

/-
  A match stays one when another match of a funnel is applied
  that has no operation in common with it.
-/
theorem Finds.of_disjoint (hS' : g'.Sound) (hAcy' : g'.Acyclic) {rule' : Rule K}
    {f' : Nat → Nat} (hOther : rs.Finds g other rule' f') (hFunnel' : rule'.pattern.Funnel)
    (hDisjoint : ∀ n ∈ other.ids, n ∉ m.ids) : rs.Finds g' other rule' f' := by
  rcases hFinds.exists_pattern hC with ⟨-, -, hUse, -, -⟩
  rcases hOther.exists_pattern hC with ⟨-, -, hUse', -, -⟩
  have hIns : ∀ n, n ∈ m.ids ↔ rule.pattern.InImage f n :=
    fun n => (hFinds.toNames.stands hC).mem_ids_iff
  have hApart : ∀ n, rule'.pattern.InImage f' n → n ∉ m.ids :=
    fun n hM => hDisjoint n ((hOther.toNames.stands hC).mem_ids_iff.mpr hM)
  have hOps : ∀ n, rule'.pattern.InImage f' n → n ∈ g.opIds := by
    rintro _ ⟨n, hN, rfl⟩
    exact hOther.occurs.operation n hN
  have hNodes : ∀ n ∈ rule'.pattern.opIds, ∃ node ∈ g.ops, node ∈ g'.ops ∧ node.id = f' n := by
    intro n hN
    rcases Graph.mem_opIds_iff.mp (hOther.occurs.operation n hN) with ⟨node, hNode, hId⟩
    exact ⟨node, hNode, (hDone.ops node).mpr (.inl ⟨hNode, hId ▸ hApart _ ⟨n, hN, rfl⟩⟩), hId⟩
  have hOcc : rule'.pattern.Occurs g' f' := by
    constructor
    · intro n hN
      rcases hNodes n hN with ⟨node, -, hNode, hId⟩
      exact Graph.mem_opIds_iff.mpr ⟨node, hNode, hId⟩
    · exact hOther.occurs.injective
    · intro n hN
      rcases hNodes n hN with ⟨node, hNode, hNode', hId⟩
      rw [← hOther.occurs.kind n hN, ← hId, hS.kindOf?_id hNode, hS'.kindOf?_id hNode']
    · intro n hN
      rcases hNodes n hN with ⟨node, hNode, hNode', hId⟩
      have hParams := hOther.occurs.params n hN
      rw [← hId, hS.paramsOf_id hNode] at hParams
      rw [← hId, hS'.paramsOf_id hNode']
      exact hParams
    · intro n hN k hK i j hW
      exact (hDone.wires _ _).mpr (.inl ⟨hOther.occurs.wired n hN k hK i j hW,
        hApart _ ⟨n, hN, rfl⟩, hApart _ ⟨k, hK, rfl⟩⟩)
    · exact fedOutside_of_disjoint hC hFinds hFunnel hDone hS hOther.occurs hOther.convex hApart
    · -- what feeds no output of the other match does not feed this one
      intro n hN i hClosed dst hW
      rcases (hDone.wires _ _).mp hW with ⟨hThere, -, -⟩ | ⟨x, y, -, hStart, -⟩
      · exact hOther.occurs.closed n hN i hClosed dst hThere
      · exfalso
        by_cases hInput : x.1 = inputId
        · rw [Graph.StartsAt, if_pos hInput] at hStart
          rcases (hFinds.toNames.source_iff hUse).mp hStart with ⟨k, hK, j, -, hFeeds⟩
          have hIn := hOther.occurs.closed n hN i hClosed _ hFeeds
          exact hApart _ hIn ((hIns _).mpr ⟨k, hK, rfl⟩)
        · rw [Graph.StartsAt, if_neg hInput] at hStart
          have hCopy : f' n = g.copyId rule.replacement x.1 := congrArg Prod.fst hStart
          exact copyId_notMem hS rule.replacement x.1 (hCopy ▸ hOps _ ⟨n, hN, rfl⟩)
  exact ⟨hOther.toNames, hOcc, hOcc.convex hUse' hFunnel' hS' hAcy'⟩

end

end RuleSet

end CircuitGraph
