import CircuitGraph.Proofs.Substitution.Success

/-
  The exact account of a substitution.

  After a match has been applied, the nodes are those outside
  the match and the copies of the operations of the
  replacement; the wires are those that do not touch the match
  and those that the wires of the replacement stand for.

  Main declarations:
    * `Substituted`: what a graph turns into
    * `apply_exact`
-/

---- Accounts ----

namespace CircuitGraph

open List

variable {K : Type} {g' : Graph K} {a d : Nat × Nat}

def Match.Source (m : Match) (g : Graph K) (i : Nat) (a : Nat × Nat) : Prop :=
  ∃ pins pin, m.inputs[i]? = some pins ∧ pin ∈ pins ∧ g.Wired a pin.place

def Match.Consumer (m : Match) (g : Graph K) (j : Nat) (d : Nat × Nat) : Prop :=
  ∃ pin, m.outputs[j]? = some pin ∧ g.Wired pin.place d ∧ d.1 ∉ m.ids

namespace Graph

def copyId (g replacement : Graph K) (n : Nat) : Nat :=
  g.nextId + replacement.opIds.idxOf n

def StartsAt (g replacement : Graph K) (m : Match) (x a : Nat × Nat) : Prop :=
  if x.1 = inputId then m.Source g x.2 a else a = (g.copyId replacement x.1, x.2)

def EndsAt (g replacement : Graph K) (m : Match) (y d : Nat × Nat) : Prop :=
  if y.1 = outputId then m.Consumer g y.2 d else d = (g.copyId replacement y.1, y.2)

/-
  What applying a match of a rule does to a graph, and what
  the step tells about it.
-/
structure Substituted (g : Graph K) (m : Match) (rule : Rule K) (step : Step) (g' : Graph K) :
    Prop where
  signature : g'.signature = g.signature
  nextId : g'.nextId = g.nextId + rule.replacement.ops.length
  ops : ∀ node, node ∈ g'.ops ↔ (node ∈ g.ops ∧ node.id ∉ m.ids) ∨
    ∃ r ∈ rule.replacement.ops, node =
      ⟨g.copyId rule.replacement r.id, r.kind, r.params, r.body.map Graph.copy, none⟩
  wires : ∀ a d, g'.Wired a d ↔ (g.Wired a d ∧ a.1 ∉ m.ids ∧ d.1 ∉ m.ids) ∨
    ∃ x y, rule.replacement.Wired x y ∧ g.StartsAt rule.replacement m x a ∧
      g.EndsAt rule.replacement m y d
  sources : ∀ i < rule.replacement.inputs.length,
    ∃ a, a.1 ∉ m.ids ∧ ∀ a', m.Source g i a' ↔ a' = a
  name : (step.rule, step.name, step.root, step.path) = (m.rule, rule.name, m.root, [])
  removed : step.removed = m.nodes
  inserted : step.inserted = (List.range rule.replacement.ops.length).map (g.nextId + ·)
  sorted : (step.touched.map Slot.toNat).Pairwise (· < ·)
  touched : ∀ n, n ∈ step.touched.map Slot.toNat ↔ n ≠ inputId ∧ n ≠ outputId ∧
    (n ∈ step.inserted ∨ (∃ i a, m.Source g i a ∧ a.1 = n) ∨ ∃ j d, m.Consumer g j d ∧ d.1 = n)

theorem Substituted.of_alike {g h : Graph K} {m : Match} {rule : Rule K} {step : Step}
    (hSubstituted : g.Substituted m rule step g') (hA : g.Alike h) :
    h.Substituted m rule step g' := by
  have hBare : ∀ g : Graph K, g.bare.Substituted m rule step g' = g.Substituted m rule step g' := by
    intro g
    apply propext
    constructor
    · intro hThere
      exact ⟨hThere.signature, hThere.nextId, hThere.ops, hThere.wires, hThere.sources, hThere.name,
        hThere.removed, hThere.inserted, hThere.sorted, hThere.touched⟩
    · intro hHere
      exact ⟨hHere.signature, hHere.nextId, hHere.ops, hHere.wires, hHere.sources, hHere.name,
        hHere.removed, hHere.inserted, hHere.sorted, hHere.touched⟩
  rw [hA.congr (fun g => g.Substituted m rule step g') hBare]
  exact hSubstituted

end Graph

---- The Boundary of a Match ----

namespace Plan.Splices

variable {rs : RuleSet K} {p : Plan} {s : Splicing K}

section

variable (hSpl : p.Splices rs s)

include hSpl

theorem source_iff {i : Nat} (hLt : i < s.rule.pattern.inputs.length) :
    p.found.Source s.host i a ↔ a = s.source i := by
  rcases s.usable.isPattern.exists_inputPin (congrArg Prod.fst hSpl.stands.places) hLt with
    ⟨q, pin, hTargets, -, hPins, hPlace⟩
  have hEntry : s.rule.pattern.Wired (inputId, i) q.place := by
    apply Graph.wired_iff_mem_targets.mpr
    exact ⟨q, by simp [hTargets], rfl⟩
  have hFeeds : s.host.Wired (s.source i) pin.place := by
    rw [hPlace]
    exact s.feeds i q.node q.index hEntry
  constructor
  · intro hSrc
    rcases hSrc with ⟨pins, pin', hPins', hM, hW⟩
    rw [hPins, Option.some.injEq] at hPins'
    rw [← hPins', mem_singleton] at hM
    rw [hM] at hW
    exact s.sound.source_unique hW hFeeds
  · intro hSame
    rw [hSame]
    exact ⟨[pin], pin, hPins, mem_singleton_self pin, hFeeds⟩

theorem consumer_iff {j : Nat} (hLt : j < s.rule.pattern.outputs.length) :
    p.found.Consumer s.host j d ↔ s.Ends (outputId, j) d := by
  have hPat := s.usable.pattern.sound
  rcases s.usable.isPattern.exists_outputPin (congrArg Prod.snd hSpl.stands.places) hLt with
    ⟨q, pin, hSrc, -, hPin, hPlace⟩
  have hExit : s.rule.pattern.Wired q.place (outputId, j) :=
    hPat.wired_iff_source?.mpr ⟨q, hSrc, rfl⟩
  rw [Splicing.Ends, if_pos rfl]
  constructor
  · intro hConsumer
    rcases hConsumer with ⟨pin', hPin', hW, hOut⟩
    rw [hPin, Option.some.injEq] at hPin'
    rw [← hPin', hPlace] at hW
    exact ⟨q.place, hExit, hW, fun hIns => hOut (hSpl.inside_iff.mp hIns)⟩
  · intro hEnds
    rcases hEnds with ⟨q', hExit', hW, hOut⟩
    rw [hPat.source_unique hExit' hExit] at hW
    refine ⟨pin, hPin, ?_, fun hIns => hOut (hSpl.inside_iff.mpr hIns)⟩
    rw [hPlace]
    exact hW

theorem length_inputs : p.found.inputs.length = s.rule.pattern.inputs.length := by
  simpa [Match.places, Graph.imageBoundary] using
    congrArg (fun places => places.1.length) hSpl.stands.places

theorem length_outputs : p.found.outputs.length = s.rule.pattern.outputs.length :=
  s.usable.isPattern.length_outputPins (congrArg Prod.snd hSpl.stands.places)

theorem source_lt {i : Nat} (hSrc : p.found.Source s.host i a) :
    i < s.rule.pattern.inputs.length := by
  rcases hSrc with ⟨pins, -, hPins, -⟩
  rw [← hSpl.length_inputs]
  exact lt_of_getElem? hPins

theorem consumer_lt {j : Nat} (hConsumer : p.found.Consumer s.host j d) :
    j < s.rule.pattern.outputs.length := by
  rcases hConsumer with ⟨pin, hPin, -⟩
  rw [← hSpl.length_outputs]
  exact lt_of_getElem? hPin

theorem mem_sourceNodes_iff {n : Nat} :
    n ∈ p.sourceNodes.map Slot.toNat ↔ ∃ i a, p.found.Source s.host i a ∧ a.1 = n := by
  have hServes := hSpl.serves
  constructor
  · intro hM
    rcases mem_map.mp hM with ⟨slot, hSlot, rfl⟩
    rcases mem_map.mp hSlot with ⟨pin, hPin, rfl⟩
    rcases getElem?_of_mem hPin with ⟨i, hAt⟩
    have hLt : i < s.rule.pattern.inputs.length := by
      rw [← hServes.width]
      exact lt_of_getElem? hAt
    rcases hServes.sources i hLt with ⟨pin', hAt', hPlace⟩
    rw [hAt, Option.some.injEq] at hAt'
    refine ⟨i, s.source i, (hSpl.source_iff hLt).mpr rfl, ?_⟩
    rw [← hPlace, ← hAt']
    rfl
  · intro hFeeds
    rcases hFeeds with ⟨i, a, hSrc, rfl⟩
    have hLt := hSpl.source_lt hSrc
    rcases hServes.sources i hLt with ⟨pin, hAt, hPlace⟩
    rw [(hSpl.source_iff hLt).mp hSrc, ← hPlace]
    apply mem_map_of_mem
    exact mem_map_of_mem (mem_of_getElem? hAt)

theorem mem_consumerNodes_iff {n : Nat} :
    n ∈ p.consumerNodes.map Slot.toNat ↔ ∃ j d, p.found.Consumer s.host j d ∧ d.1 = n := by
  rw [Splicing.mem_consumerNodes_iff hSpl.serves]
  constructor
  · intro hEnds
    rcases hEnds with ⟨j, hLt, i, hEnds⟩
    exact ⟨j, (n, i), (hSpl.consumer_iff hLt).mpr hEnds, rfl⟩
  · intro hConsumer
    rcases hConsumer with ⟨j, d, hConsumer, rfl⟩
    have hLt := hSpl.consumer_lt hConsumer
    exact ⟨j, hLt, d.2, (hSpl.consumer_iff hLt).mp hConsumer⟩

end

end Plan.Splices

---- The Account ----

namespace Plan.Splices

variable {rs : RuleSet K} {p : Plan} {s : Splicing K}

theorem fresh_eq (hSpl : p.Splices rs s) : s.fresh = s.host.copyId s.rule.replacement := by
  funext n
  exact hSpl.fresh n

theorem startsAt_iff (hSpl : p.Splices rs s) {x y : Nat × Nat} (hW : s.rule.replacement.Wired x y) :
    s.host.StartsAt s.rule.replacement p.found x a ↔ a = s.start x := by
  unfold Graph.StartsAt Splicing.start
  by_cases hInput : x.1 = inputId
  · rw [if_pos hInput, if_pos hInput]
    apply hSpl.source_iff
    rcases s.usable.replacement.sound.wired_types hW with ⟨t, hType, -⟩
    rw [Graph.outType?, hInput, Graph.signatureOf_inputId, s.usable.inputs] at hType
    exact lt_of_getElem? hType
  · rw [if_neg hInput, if_neg hInput, hSpl.fresh_eq]

theorem endsAt_iff (hSpl : p.Splices rs s) {x y : Nat × Nat} (hW : s.rule.replacement.Wired x y) :
    s.host.EndsAt s.rule.replacement p.found y d ↔ s.Ends y d := by
  unfold Graph.EndsAt
  by_cases hOutp : y.1 = outputId
  · have hLt : y.2 < s.rule.pattern.outputs.length := by
      rcases s.usable.replacement.sound.wired_types hW with ⟨t, -, hType⟩
      rw [Graph.inType?, hOutp, Graph.signatureOf_outputId, s.usable.outputs] at hType
      exact lt_of_getElem? hType
    have hPlace : y = (outputId, y.2) := Prod.ext hOutp rfl
    rw [if_pos hOutp, hSpl.consumer_iff hLt, ← hPlace]
  · rw [if_neg hOutp, Splicing.Ends, if_neg hOutp, hSpl.fresh_eq]

end Plan.Splices

theorem RuleSet.map_toNat_touched (rule : Rule K) (p : Plan) (inserted : List Nat) :
    (stepOf rule p inserted).touched.map Slot.toNat =
      (sortIds ((inserted.map Slot.number ++ p.sourceNodes ++ p.consumerNodes).map Slot.toNat)).filter
        isOpId := by
  rw [← map_toNat_sortSlots, filter_map]
  rfl

theorem Plan.Splices.idsSince_eq {s : Splicing K} {p : Plan}
    (hLay : (s.layout p p.keeps).Alike g') : RuleSet.idsSince s.host.nextId g' =
      (List.range s.rule.replacement.ops.length).map (s.host.nextId + ·) := by
  have hNext : g'.nextId = s.host.nextId + s.rule.replacement.ops.length := hLay.nextId
  rw [RuleSet.idsSince, hNext, Nat.add_sub_cancel_left]

theorem Plan.Splices.substituted {rs : RuleSet K} {s : Splicing K} {p : Plan}
    (hSpl : p.Splices rs s) (hLay : (s.layout p p.keeps).Alike g') :
    s.host.Substituted p.found s.rule
      (RuleSet.stepOf s.rule p (RuleSet.idsSince s.host.nextId g')) g' := by
  have hRes := hSpl.result hLay
  have hIns : ∀ n, s.Inside n ↔ n ∈ p.found.ids := fun n => hSpl.inside_iff
  constructor
  · rw [Graph.signature, Graph.signature, hRes.inputs, hRes.outputs]
  · exact hLay.nextId
  · intro node
    rw [hRes.ops, hIns, ← hSpl.fresh_eq]
    rfl
  · intro a d
    rw [hRes.wired, hIns, hIns]
    apply or_congr Iff.rfl
    constructor
    · intro hNew
      rcases hNew with ⟨x, y, hW, hStart, hEnd⟩
      exact ⟨x, y, hW, (hSpl.startsAt_iff hW).mpr hStart, (hSpl.endsAt_iff hW).mpr hEnd⟩
    · intro hNew
      rcases hNew with ⟨x, y, hW, hStart, hEnd⟩
      exact ⟨x, y, hW, (hSpl.startsAt_iff hW).mp hStart, (hSpl.endsAt_iff hW).mp hEnd⟩
  · intro i hLt
    rw [s.usable.inputs] at hLt
    refine ⟨s.source i, ?_, fun a => hSpl.source_iff hLt⟩
    rw [← hIns]
    exact (Splicing.source_spec (getElem?_eq_getElem hLt)).1
  · rfl
  · rfl
  · exact Plan.Splices.idsSince_eq hLay
  · rw [RuleSet.map_toNat_touched]
    exact (sortIds_pairwise _).sublist filter_sublist
  · intro n
    rw [RuleSet.map_toNat_touched, mem_filter, mem_sortIds, map_append, map_append,
      mem_append, mem_append, hSpl.mem_sourceNodes_iff,
      hSpl.mem_consumerNodes_iff, Graph.isOpId_iff]
    have hIds : ∀ ns : List Nat, (ns.map Slot.number).map Slot.toNat = ns := by
      intro ns
      rw [map_map]
      exact map_id ns
    rw [hIds, or_assoc, and_comm, ← and_assoc]
    refine and_congr ?_ Iff.rfl
    rw [inputId, outputId]
    omega

/-
  Every match that is found can be applied, and its
  application does to the graph and tells in its step what the
  account says.
-/
theorem apply_exact
    [Scalar K]
    [Scalar.Ordered K]
    {rules : List (Rule K)}
    (hRules : ∀ rule ∈ rules, rule.Reachable)
    {rs : RuleSet K}
    (hCompile : RuleSet.compile rules = .ok rs)
    {g : Graph K}
    (hReach : g.Reachable)
    (hFormed : g.validate = .ok ())
    (hCounts : Scalar.Counts K g.nextId) :
    ∃ ms g₁, Yields (rs.findMatches none) g ms g₁ ∧ ∀ m ∈ ms, ∃ rule step g',
      rules[m.rule]? = some rule ∧ Yields (rs.apply m) g₁ step g' ∧
      g.Substituted m rule step g' := by
  rcases RuleSet.compiled_of_reachable hRules hCompile with ⟨rfl, hCompiled⟩
  have hAcyclic := (hReach.intact.validate_ok_iff.mp hFormed).acyclic
  have hSearch := hReach.searchable hAcyclic hCounts
  rcases hCompiled.yields_findMatches hSearch none with ⟨g₁, hFound, hSearch₁, hUnchanged⟩
  refine ⟨_, g₁, hFound, ?_⟩
  intro m hMem
  rcases mem_flatMap.mp hMem with ⟨anchor, -, hMem⟩
  rcases (hCompiled.finds_of_mem hSearch.sound hMem).2.2 with ⟨rule, f, hFinds⟩
  rcases hCompiled.exists_applies hSearch₁ (hFinds.of_alike hUnchanged.1) with
    ⟨p, s, g', hApplies⟩
  have hHost : g.Alike s.host := hUnchanged.1.trans hApplies.host.1
  have hDone := hApplies.splices.substituted hApplies.layout
  rw [hApplies.found, hApplies.host.1.nextId] at hDone
  refine ⟨s.rule, _, g', ?_, hApplies.yields, hDone.of_alike hHost.symm⟩
  rw [← hApplies.found]
  exact hApplies.splices.rule

/- Three inversions in a row have two matches, and the account holds for both. -/
theorem apply_exact_inversions :
    ∃ (rule : Rule ℚ) (rs : RuleSet ℚ) (g : Graph ℚ) (ms : List Match) (g₁ : Graph ℚ),
      inversionTask = .ok (rule, rs, g) ∧ Yields (rs.findMatches none) g ms g₁ ∧ ms.length = 2 ∧
      ∀ m ∈ ms, ∃ rule' step g', [rule][m.rule]? = some rule' ∧ Yields (rs.apply m) g₁ step g' ∧
        g.Substituted m rule' step g' := by
  have hCheck : inversionTask.toOption.any (fun task =>
      (outcome (task.2.1.findMatches none) task.2.2).1.toOption.any (fun ms => ms.length == 2)) =
        true := by cbv
  rcases exists_of_toOption_any hCheck with ⟨⟨rule, rs, g⟩, hTask, hFound⟩
  rcases exists_of_toOption_any hFound with ⟨ms, hFound, hLength⟩
  rcases parts_of_inversionTask hTask with ⟨hRule, hCompile, hReach, hValid⟩
  rcases apply_exact (forall_mem_singleton.mpr (Rule.reachable_of_ofCircuits hRule)) hCompile hReach
    hValid (Scalar.counts_rational _) with ⟨ms', g₁, hFound', hApply⟩
  obtain ⟨rfl, -⟩ := hFound'.unique (Prod.ext hFound rfl)
  exact ⟨rule, rs, g, _, g₁, hTask, hFound', beq_iff_eq.mp hLength, hApply⟩

end CircuitGraph
