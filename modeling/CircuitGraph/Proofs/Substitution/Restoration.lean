import CircuitGraph.Proofs.Graph.Essence
import CircuitGraph.Proofs.Substitution.Effect

/-
  Substitutions that are taken back.

  When a substitution would close a cycle, the inserted
  operations are withdrawn, the wires that run straight from
  the sources of the plan to its consumers are cut, and what
  was taken out is put back.
-/

---- The Order of Operations and Wires ----

namespace CircuitGraph

open List

namespace Graph

variable {K : Type} {g g' : Graph K}

/-
  The graph `g'` has the operations and the wires of `g`, maybe
  in another order, and has given out no fewer ids.
-/
structure Rearranged (g g' : Graph K) : Prop where
  inputs : g'.inputs = g.inputs
  outputs : g'.outputs = g.outputs
  ops : g'.ops.Perm g.ops
  wires : g'.wires.Perm g.wires
  next : g.nextId ≤ g'.nextId

namespace Rearranged

theorem of_alike (hA : g.Alike g') : g.Rearranged g' :=
  ⟨hA.inputs, hA.outputs, .of_eq hA.ops, .of_eq hA.wires, hA.nextId.ge⟩

theorem trans {g'' : Graph K} (hL : g.Rearranged g') (hR : g'.Rearranged g'') :
    g.Rearranged g'' where
  inputs := hR.inputs.trans hL.inputs
  outputs := hR.outputs.trans hL.outputs
  ops := hR.ops.trans hL.ops
  wires := hR.wires.trans hL.wires
  next := hL.next.trans hR.next

theorem sound (hSame : g.Rearranged g') (hS : g.Sound) : g'.Sound := by
  have hMir : g.Mirrors (fun b b' => b' = b) { g' with wires := g.wires } := by
    refine ⟨hSame.inputs, hSame.outputs, rfl, hSame.next, fun node => node, fun node _ => ?_, ?_⟩
    · refine ⟨rfl, rfl, rfl, rfl, ?_⟩
      cases node.body with
      | none => exact .none
      | some b => exact .some rfl
    · rw [map_id']
      exact hSame.ops.symm
  have hS' := hMir.sound related_eq_signature hS
  exact ⟨hS'.nodes, hS'.unique, hS'.operation, hS'.issued, hS'.started,
    fun w hM => hS'.typed w (hSame.wires.mem_iff.mp hM),
    (hSame.wires.map _).nodup_iff.mpr hS'.single,
    fun v hV w hW => hS'.linear v (hSame.wires.mem_iff.mp hV) w (hSame.wires.mem_iff.mp hW)⟩

theorem toDescription_eq (hSame : g.Rearranged g') (hS : g.Sound) :
    g'.toDescription = g.toDescription := by
  have hS' := hSame.sound hS
  have hOps : g'.sortedOps = g.sortedOps := by
    have hSort : g'.sortedOps.map id = g.sortedOps.map id :=
      sortedOps_map_eq (fun _ => rfl) (fun _ => rfl) hS'.unique (by simpa using hSame.ops)
    simpa using hSort
  have hWires : g'.sortedWires = g.sortedWires := by
    have hPerm : g'.sortedWires.Perm g.sortedWires :=
      (mergeSort_perm _ _).trans (hSame.wires.trans (mergeSort_perm _ _).symm)
    refine hPerm.eq_of_pairwise (fun v w hV hW hVW hWV => ?_) g'.sortedWires_pairwise
      g.sortedWires_pairwise
    rw [Wire.before_iff] at hVW hWV
    have hDst : v.dst.place = w.dst.place := Prod.ext (by show v.dst.node = w.dst.node; omega)
      (by show v.dst.index = w.dst.index; omega)
    exact hS.wire_eq_of_dst (Splicing.mem_sortedWires_iff.mp (hPerm.mem_iff.mp hV))
      (Splicing.mem_sortedWires_iff.mp hW) hDst
  rw [toDescription_level hS'.unique, toDescription_level hS.unique, hOps, hWires,
    hSame.inputs, hSame.outputs]

end Rearranged

end Graph

---- Taking Back ----

theorem Yields.forM_imp {α ε σ : Type} {f h : α → ExceptT ε (StateM σ) Unit}
    (hEach : ∀ x s s', Yields (f x) s () s' → Yields (h x) s () s') {xs : List α} {s s' : σ}
    (hY : Yields (xs.forM f) s () s') : Yields (xs.forM h) s () s' := by
  induction xs generalizing s with
  | nil => exact hY
  | cons x xs ih =>
    rcases yields_forM_cons_iff.mp hY with ⟨t, hFirst, hRest⟩
    exact yields_forM_cons_iff.mpr ⟨t, hEach x s t hFirst, ih hRest⟩

namespace Graph

variable {K : Type} {g g' : Graph K}

theorem yields_withdraw_of_detach {n : Nat} {entry : Node (Graph K) × List Wire}
    (hY : Yields (detach (.number n)) g entry g') : Yields (withdraw n) g () g' := by
  unfold detach at hY
  have hChecking := hY.get_bind
  refine .bind rfl ?_
  cases hHas : g.hasNode n with
  | false => simp [Slot.toNat, hHas] at hChecking
  | true =>
    simp only [Slot.toNat, hHas, Bool.not_true, Bool.false_eq_true, if_false] at hChecking
    rcases yields_bind_iff.mp hChecking with ⟨node, g₁, hRemove, hPure⟩
    obtain ⟨-, rfl⟩ := yields_pure_iff.mp hPure
    exact .bind hRemove rfl

theorem yields_withdrawAll_of_detachAll {ids : List Nat}
    {entries : List (Node (Graph K) × List Wire)}
    (hY : Yields ((ids.map Slot.number).mapM detach) g entries g') :
    Yields (ids.forM withdraw) g () g' := by
  induction ids generalizing g entries with
  | nil => exact yields_forM_nil_iff.mpr (yields_mapM_nil_iff.mp hY).2
  | cons n ids ih =>
    rcases yields_mapM_cons_iff.mp hY with ⟨entry, rest, g₁, hFirst, hRest, -⟩
    exact yields_forM_cons_iff.mpr ⟨g₁, yields_withdraw_of_detach hFirst, ih hRest⟩

theorem Sound.yields_withdrawAll (hS : g.Sound) {ids : List Nat} (hNodup : ids.Nodup)
    (hM : ∀ n ∈ ids, n ∈ g.opIds) (hLoop : ∀ n ∈ ids, ¬ g.Edge n n) :
    ∃ g', Yields (ids.forM withdraw) g () g' ∧ Alike (g.restrict (fun n => decide (n ∉ ids))) g' := by
  have hIds : (ids.map Slot.number).map Slot.toNat = ids := by
    rw [map_map]
    exact map_id ids
  have hSlots : ∀ s ∈ ids.map Slot.number, s.toNat ∈ g.opIds := forall_mem_map.mpr hM
  rcases hS.yields_detachAll (hIds.symm ▸ hNodup) hSlots (forall_mem_map.mpr hLoop) with
    ⟨entries, g', hY, hA, -⟩
  rw [hIds] at hA
  exact ⟨g', yields_withdrawAll_of_detachAll hY, hA⟩

def passes (p : Plan) (pins : List Pin) (w : Wire) : Bool :=
  p.sources.any w.src.same && pins.any w.dst.same

theorem Sound.yields_cutPassing (hS : g.Sound) (p : Plan) (c : Pin) :
    ∃ g', Yields (cutPassing p c) g () g' ∧
      Alike { g with wires := g.wires.filter (fun w => !passes p [c] w) } g' := by
  have hSame (w : Wire) : passes p [c] w = true ↔
      p.sources.any w.src.same = true ∧ w.dst.place = (c.node, c.index) := by
    simp [passes, Pin.same, Pin.place]
  unfold cutPassing
  cases hInto : g.wireInto? c.node c.index with
  | none =>
    refine ⟨g, .bind rfl ?_, .of_parts rfl rfl rfl (filter_eq_self.mpr fun v hV => ?_).symm rfl⟩
    · rw [hInto]
      exact rfl
    · rw [Bool.not_eq_true', ← Bool.not_eq_true, hSame]
      intro hPasses
      rw [hS.wireInto?_iff.mpr ⟨hV, hPasses.2⟩] at hInto
      cases hInto
  | some w =>
    rcases hS.wireInto?_iff.mp hInto with ⟨hM, hPlace⟩
    -- only this wire enters the place
    have hOnly : ∀ v ∈ g.wires, v.dst.place = (c.node, c.index) → v = w := fun v hV hAt =>
      hS.wire_eq_of_dst hV hM (hAt.trans hPlace.symm)
    by_cases hPasses : p.sources.any w.src.same = true
    · refine ⟨g.eraseWire w, .bind rfl ?_, ?_⟩
      · simp only [hInto, hPasses, if_true]
        exact hS.yields_cut hM
      · refine .of_parts rfl rfl rfl ?_ rfl
        rw [eraseWire, hS.wires_nodup.erase_eq_filter]
        refine filter_congr (fun v hV => ?_)
        rw [Bool.eq_iff_iff, Bool.not_eq_true', ← Bool.not_eq_true, hSame, bne_iff_ne]
        exact not_congr ⟨fun hEq => hEq ▸ ⟨hPasses, hPlace⟩, fun hAt => hOnly v hV hAt.2⟩
    · refine ⟨g, .bind rfl ?_, .of_parts rfl rfl rfl (filter_eq_self.mpr fun v hV => ?_).symm rfl⟩
      · simp only [hInto, hPasses]
        exact rfl
      · rw [Bool.not_eq_true', ← Bool.not_eq_true, hSame]
        rintro ⟨hSrc, hAt⟩
        exact hPasses (hOnly v hV hAt ▸ hSrc)

theorem Sound.yields_cutPassingAll (hS : g.Sound) (p : Plan) (pins : List Pin) :
    ∃ g', Yields (pins.forM (cutPassing p)) g () g' ∧
      Alike { g with wires := g.wires.filter (fun w => !passes p pins w) } g' := by
  induction pins generalizing g with
  | nil =>
    refine ⟨g, yields_forM_nil_iff.mpr rfl, .of_parts rfl rfl rfl ?_ rfl⟩
    simp [passes]
  | cons c pins ih =>
    rcases hS.yields_cutPassing p c with ⟨g₁, hFirst, hA₁⟩
    have hS₁ := (hS.restrictWires filter_sublist).of_alike hA₁
    rcases ih hS₁ with ⟨g₂, hRest, hA₂⟩
    refine ⟨g₂, yields_forM_cons_iff.mpr ⟨g₁, hFirst, hRest⟩, ?_⟩
    refine .of_parts (hA₂.inputs.trans hA₁.inputs) (hA₂.outputs.trans hA₁.outputs)
      (hA₂.ops.trans hA₁.ops) ?_ (hA₂.nextId.trans hA₁.nextId)
    rw [hA₂.wires, hA₁.wires, filter_filter]
    refine filter_congr (fun w _ => ?_)
    cases hSrc : p.sources.any w.src.same <;> simp [passes, hSrc, Bool.and_comm]

---- Putting Back ----

theorem yields_reinsertAll (taken : List (Node (Graph K) × List Wire)) :
    ∃ g', Yields (taken.forM (fun entry => modify (fun g => g.insertNode entry.1)) : Edit K Unit)
        g () g' ∧
      Alike { g with ops := g.ops ++ taken.map Prod.fst } g' := by
  induction taken generalizing g with
  | nil =>
    refine ⟨g, yields_forM_nil_iff.mpr rfl, .of_parts rfl rfl ?_ rfl rfl⟩
    simp
  | cons entry taken ih =>
    rcases ih (g := g.insertNode entry.1) with ⟨g', hRest, hA⟩
    refine ⟨g', yields_forM_cons_iff.mpr ⟨_, yields_modify_iff.mpr rfl, hRest⟩, ?_⟩
    refine .of_parts hA.inputs hA.outputs (hA.ops.trans ?_) hA.wires hA.nextId
    simp [insertNode]

variable [Scalar K]

theorem yields_restoreWire_of_join {w : Wire} (hY : Yields (join w.src w.dst) g () g') :
    Yields (restoreWire w) g () g' := by
  have hFree : (g.wireInto? w.dst.node w.dst.index).isSome = false := by
    unfold join at hY
    have hTyping := hY.get_bind
    rcases hTyping.ofExcept_bind with ⟨carried, -, hTyping⟩
    rcases yields_bind_iff.mp hTyping with ⟨expected, _, hExpected, hLinking⟩
    obtain ⟨-, rfl⟩ := Edit.yields_ofExcept_iff.mp hExpected
    rcases yields_bind_iff.mp hLinking with ⟨_, g₁, hLink, -⟩
    unfold link at hLink
    have hChecks := hLink.get_bind
    rw [← Bool.not_eq_true]
    intro hTaken
    simp only [hTaken, if_true] at hChecks
    split at hChecks
    · rcases yields_bind_iff.mp hChecks with ⟨_, _, hThrow, -⟩
      exact not_yields_throw hThrow
    · rcases yields_bind_iff.mp hChecks with ⟨_, _, hThrow, -⟩
      exact not_yields_throw hThrow
  have hNone : g.wireInto? w.dst.node w.dst.index = none := by simpa using hFree
  unfold restoreWire
  refine .bind rfl ?_
  simpa [hNone] using hY

theorem yields_restoreAll {taken : List (Node (Graph K) × List Wire)}
    (hS : ({ g with wires := g.wires ++ taken.flatMap Prod.snd } : Graph K).Sound) :
    ∃ g', Yields (taken.forM (fun entry => entry.2.forM restoreWire)) g () g' ∧
      Alike { g with wires := g.wires ++ taken.flatMap Prod.snd } g' := by
  rcases yields_joinAll hS with ⟨g', hJoins, hA⟩
  rw [forM_flatMap]
  exact ⟨g', hJoins.forM_imp (fun _ _ _ => yields_restoreWire_of_join), hA⟩

end Graph

---- The Way Back ----

theorem filter_append_eq_left {α : Type} {xs ys : List α} {keep : α → Bool}
    (hL : ∀ x ∈ xs, keep x = true) (hR : ∀ y ∈ ys, keep y = false) :
    (xs ++ ys).filter keep = xs := by
  rw [filter_append, filter_eq_self.mpr hL,
    filter_eq_nil_iff.mpr (fun y hM => by simp [hR y hM]), append_nil]

variable {K : Type} {rs : RuleSet K} {p : Plan} {s : Splicing K} {g : Graph K}

namespace Splicing

theorem Result.not_edge_new (hRes : s.Result g) {n : Nat} (hNew : s.New n) : ¬ g.Edge n n := by
  intro hEdge
  rcases Graph.edge_iff_wired.mp hEdge with ⟨i, j, hW⟩
  rcases (hRes.wired _ _).mp hW with ⟨hHost, hOut, -⟩ | ⟨a, b, hIn, hStart, hEnds⟩
  · exact Old.not_new ⟨(s.sound.edge_mem hHost.edge).1, hOut⟩ hNew
  · rcases start_cases hIn with ⟨hA, hCopy⟩ | ⟨-, -, hOld, -⟩
    · rcases ends_cases hIn hEnds with ⟨hB, hCopy'⟩ | ⟨-, hOld, -⟩
      · -- both ends belong to one operation of the replacement
        have hFresh : s.fresh a.1 = s.fresh b.1 := by
          rw [hCopy] at hStart
          exact (congrArg Prod.fst hStart).symm.trans (congrArg Prod.fst hCopy')
        have hSame := s.injective _ hA _ hB hFresh
        exact s.usable.replacementFormed.acyclic a.1 (.single (hSame ▸ hIn.edge))
      · exact hOld.not_new hNew
    · rw [← hStart] at hOld
      exact hOld.not_new hNew

end Splicing

namespace Plan.Splices

theorem not_passes_of_keeps (hSpl : p.Splices rs s) {w : Wire} (hM : w ∈ s.host.wires)
    (hKeeps : p.keeps w.src.node = true) : Graph.passes p p.consumers.flatten w = false := by
  rw [← Bool.not_eq_true]
  intro hPasses
  simp only [Graph.passes, Bool.and_eq_true, any_eq_true, Pin.same, beq_iff_eq] at hPasses
  rcases hPasses.2 with ⟨pin, hPin, hPlace⟩
  rcases mem_flatten.mp hPin with ⟨pins, hPins, hPin⟩
  rcases getElem?_of_mem hPins with ⟨j, hAt⟩
  have hLt : j < s.rule.pattern.outputs.length :=
    hSpl.serves.count ▸ (lt_of_getElem? hAt)
  rcases hSpl.serves.consumers j hLt with ⟨pins', hAt', -, hEnds⟩
  obtain rfl := eq_of_some hAt hAt'
  have hEnd := (hEnds w.dst.place).mp (hPlace ▸ mem_map_of_mem hPin)
  rw [Splicing.Ends, if_pos rfl] at hEnd
  rcases hEnd with ⟨q, hExit, hW, -⟩
  have hSrc : s.image q.1 = w.src.node :=
    congrArg Prod.fst (s.sound.source_unique hW ⟨w, hM, rfl, rfl⟩)
  have hIns := Splicing.inside_image (s := s) (Splicing.mem_of_output hExit)
  exact (hSpl.keeps_iff _).mp hKeeps (hSrc ▸ hIns)

/- A wire of the replacement between no copies runs straight through. -/
theorem passes_of_wiresOf (hSpl : p.Splices rs s) {r w : Wire}
    (hM : r ∈ s.rule.replacement.wires) (hOf : w ∈ s.wiresOf p r) (hSrc : ¬ s.New w.src.node)
    (hDst : ¬ s.New w.dst.node) : Graph.passes p p.consumers.flatten w = true := by
  have hS := s.usable.replacement.sound
  have hEdge : s.rule.replacement.Edge r.src.node r.dst.node := ⟨r, hM, rfl, rfl⟩
  rcases mem_map.mp hOf with ⟨d, hEnd, rfl⟩
  have hInput : r.src.node = inputId := by
    refine (hS.edge_source hEdge).resolve_right (fun hOp => hSrc ⟨r.src.node, hOp, ?_⟩)
    rw [Splicing.startPin, if_neg (hS.ne_boundary hOp).1]
    rfl
  have hOutp : r.dst.node = outputId := by
    refine (hS.edge_target hEdge).resolve_right (fun hOp => hDst ⟨r.dst.node, hOp, ?_⟩)
    rw [Splicing.endPins, if_neg (hS.ne_boundary hOp).2, mem_singleton] at hEnd
    rw [hEnd]
    rfl
  rcases Splicing.exists_sourcePin hSpl.serves hM hInput with ⟨pin, hPin, -⟩
  rcases Splicing.exists_consumerPins hSpl.serves hM hOutp with ⟨pins, hPins, -⟩
  rw [Splicing.endPins, if_pos hOutp, hPins] at hEnd
  simp only [Graph.passes, Bool.and_eq_true, any_eq_true, Pin.same, beq_iff_eq]
  refine ⟨⟨pin, mem_of_getElem? hPin, ?_⟩, d,
    mem_flatten.mpr ⟨pins, mem_of_getElem? hPins, hEnd⟩, rfl⟩
  rw [Splicing.startPin, if_pos hInput, hPin]
  rfl

theorem exists_rest (hSpl : p.Splices rs s) (hLay : (s.layout p p.keeps).Alike g) :
    ∃ g₁ g₂, Yields ((RuleSet.idsSince s.host.nextId g).forM Graph.withdraw) g () g₁ ∧
      Yields (p.consumers.flatten.forM (Graph.cutPassing p)) g₁ () g₂ ∧
      Graph.Alike { s.host.restrict p.keeps with nextId := g.nextId } g₂ := by
  have hRes := hSpl.result hLay
  have hNew : ∀ n, n ∈ RuleSet.idsSince s.host.nextId g ↔ s.New n := fun n =>
    Splicing.mem_idsSince_iff hSpl hLay.nextId
  have hNodup : (RuleSet.idsSince s.host.nextId g).Nodup :=
    nodup_range.map (fun _ _ hEq => Nat.add_left_cancel hEq)
  have hM : ∀ n ∈ RuleSet.idsSince s.host.nextId g, n ∈ g.opIds := by
    intro n hM
    rcases (hNew n).mp hM with ⟨m, hOp, rfl⟩
    rcases Graph.mem_opIds_iff.mp hOp with ⟨node, hN, rfl⟩
    exact Graph.mem_opIds_iff.mpr ⟨s.copyOf node, (hRes.ops _).mpr (.inr ⟨node, hN, rfl⟩), rfl⟩
  rcases hRes.sound.yields_withdrawAll hNodup hM
    (fun n hM => hRes.not_edge_new ((hNew n).mp hM)) with ⟨g₁, hWithdraw, hA₁⟩
  have hS₁ := (hRes.sound.restrict _).of_alike hA₁
  rcases hS₁.yields_cutPassingAll p p.consumers.flatten with ⟨g₂, hCut, hA₂⟩
  refine ⟨g₁, g₂, hWithdraw, hCut, ?_⟩
  have hOld : ∀ n ∈ s.host.nodeIds, n ∉ RuleSet.idsSince s.host.nextId g := by
    intro n hHost hIn
    rcases (hNew n).mp hIn with ⟨m, hOp, rfl⟩
    exact Splicing.fresh_notMem hOp hHost
  refine .of_parts (hA₂.inputs.trans (hA₁.inputs.trans hLay.inputs))
    (hA₂.outputs.trans (hA₁.outputs.trans hLay.outputs)) ?_ ?_
    (hA₂.nextId.trans hA₁.nextId)
  · have hOps : g₂.ops = (s.layout p p.keeps).ops.filter
        (fun node => decide (node.id ∉ RuleSet.idsSince s.host.nextId g)) := by
      rw [← hLay.ops]
      exact hA₂.ops.trans hA₁.ops
    refine hOps.trans (filter_append_eq_left (fun node hKept => ?_) (fun node hCopy => ?_))
    · have hOp := Graph.mem_opIds_of_mem ((mem_filter.mp hKept).1)
      simpa using hOld _ (Graph.mem_nodeIds_of_op hOp)
    · rcases mem_map.mp hCopy with ⟨r, hN, rfl⟩
      have hOp := Graph.mem_opIds_of_mem (Graph.mem_sortedOps_iff.mp hN)
      have hIn := (hNew (s.copyOf r).id).mpr ⟨r.id, hOp, rfl⟩
      simpa using hIn
  · have hWires : g₂.wires = ((s.layout p p.keeps).wires.filter (fun w =>
        decide (w.src.node ∉ RuleSet.idsSince s.host.nextId g) &&
          decide (w.dst.node ∉ RuleSet.idsSince s.host.nextId g))).filter
        (fun w => !Graph.passes p p.consumers.flatten w) := by
      rw [← hLay.wires, hA₂.wires]
      show g₁.wires.filter _ = _
      rw [hA₁.wires]
      rfl
    rw [filter_filter] at hWires
    refine hWires.trans (filter_append_eq_left (fun w hKept => ?_) (fun w hOf => ?_))
    · rcases mem_filter.mp hKept with ⟨hM, hEnds⟩
      have hNodes := s.sound.edge_mem ⟨w, hM, rfl, rfl⟩
      have hPasses := hSpl.not_passes_of_keeps hM (Bool.and_eq_true_iff.mp hEnds).1
      simp [hPasses, hOld _ hNodes.1, hOld _ hNodes.2]
    · rcases mem_flatMap.mp hOf with ⟨r, hM, hOf⟩
      rw [← Bool.not_eq_true]
      intro hStays
      simp only [Bool.and_eq_true, decide_eq_true_iff, Bool.not_eq_true', hNew] at hStays
      have hPasses := hSpl.passes_of_wiresOf (Splicing.mem_sortedWires_iff.mp hM) hOf
        hStays.2.1 hStays.2.2
      exact absurd (hStays.1.symm.trans hPasses) Bool.false_ne_true

/- What was taken out comes back, and nothing else is left. -/
theorem rollback_spec [Scalar K] (hSpl : p.Splices rs s) {g₁ : Graph K}
    {taken : List (Node (Graph K) × List Wire)} (hRest : Graph.Alike (s.host.restrict p.keeps) g₁)
    (hDivided : s.host.Divided g₁ taken) (hLay : (s.layout p p.keeps).Alike g) :
    ∃ g', Yields (Graph.rollback p taken (RuleSet.idsSince s.host.nextId g)) g () g' ∧
      s.host.Rearranged g' := by
  rcases hSpl.exists_rest hLay with ⟨g₂, g₃, hWithdraw, hCut, hA₃⟩
  rcases Graph.yields_reinsertAll (g := g₃) taken with ⟨g₄, hInsert, hA₄⟩
  have hSame : s.host.Rearranged { g₄ with wires := g₄.wires ++ taken.flatMap Prod.snd } := by
    refine ⟨hA₄.inputs.trans hA₃.inputs, hA₄.outputs.trans hA₃.outputs, ?_, ?_, ?_⟩
    · rw [show g₄.ops = g₁.ops ++ taken.map Prod.fst by rw [hA₄.ops, hRest.ops, ← hA₃.ops]]
      exact perm_append_comm.trans hDivided.ops
    · rw [show g₄.wires = g₁.wires by rw [hA₄.wires, hRest.wires, ← hA₃.wires]]
      exact perm_append_comm.trans hDivided.wires
    · rw [show g₄.nextId = g.nextId from hA₄.nextId.trans hA₃.nextId, hLay.nextId]
      exact Nat.le_add_right _ _
  rcases Graph.yields_restoreAll (hSame.sound s.sound) with ⟨g', hRestore, hA⟩
  refine ⟨g', ?_, hSame.trans (.of_alike hA)⟩
  exact .bind hWithdraw (.bind hCut (.bind hInsert hRestore))

---- Outcomes ----

/- A substitution takes the operations of the pattern and brings those of the replacement. -/
theorem exists_numbers (hSpl : p.Splices rs s) {g' : Graph K}
    (hLay : (s.layout p p.keeps).Alike g') :
    ∃ k, s.host.ops.length = k + s.rule.pattern.ops.length ∧
      g'.ops.length = k + s.rule.replacement.ops.length ∧
      g'.nextId = s.host.nextId + s.rule.replacement.ops.length := by
  refine ⟨(s.host.ops.filter (fun node => p.keeps node.id)).length, ?_, ?_, hLay.nextId⟩
  · have hGone := hSpl.perm_removed.length_eq
    rw [length_map, length_map, s.usable.pattern.sound.length_opIds] at hGone
    have hParts := (filter_append_perm (fun node => p.keeps node.id) s.host.ops).length_eq
    rw [length_append] at hParts
    omega
  · rw [hLay.ops, Splicing.layout, length_append, length_map,
      s.rule.replacement.sortedOps_perm.length_eq]

theorem carryOut_spec [Scalar K] (hSpl : p.Splices rs s) : ∃ g', (s.layout p p.keeps).Alike g' ∧
      (((s.host.Acyclic → g'.Acyclic) ∧ Yields (rs.carryOut p) s.host
          (RuleSet.stepOf s.rule p (RuleSet.idsSince s.host.nextId g')) g') ∨
        (¬ g'.Acyclic ∧ ∃ fault g'', Fails (rs.carryOut p) s.host fault g'' ∧
          s.host.Rearranged g'')) := by
  rcases hSpl.yields_detachAll with ⟨taken, g₁, hDetach, hRest, hDivided⟩
  have hNext : g₁.nextId = s.host.nextId := hRest.nextId
  have hAsked : Yields (Edit.ofExcept (rs.rule p.found.rule)) s.host s.rule s.host :=
    .ofExcept (RuleSet.rule_eq_ok_iff.mpr hSpl.rule)
  rcases Splicing.insertReplacement_spec hSpl hRest with ⟨g', hLay, hCases⟩
  rw [← hNext] at hCases ⊢
  refine ⟨g', hLay, ?_⟩
  rcases hCases with ⟨hNone, hInsert⟩ | ⟨hCycle, cause, hInsert⟩
  · exact .inl ⟨hNone, .bind hAsked (.bind hDetach (.bind rfl
      (.bind (yields_tryCatch_iff.mpr (.inl hInsert)) (.bind rfl rfl))))⟩
  · -- the fault is thrown again as soon as all is put back
    rcases hSpl.rollback_spec hRest hDivided hLay with ⟨g'', hBack, hSame⟩
    rw [← hNext] at hBack
    refine .inr ⟨hCycle, .unsound (s.rule.nameOr p.found.rule) p.found.root cause, g'', ?_, hSame⟩
    refine hAsked.fails_bind (hDetach.fails_bind (Yields.fails_bind rfl (Fails.bind ?_)))
    refine fails_tryCatch_iff.mpr ⟨_, g', hInsert, Yields.fails_bind rfl ?_⟩
    exact hBack.fails_bind (fails_throw_iff.mpr ⟨rfl, rfl⟩)

end Plan.Splices

namespace Plan.Ready

theorem exists_splices (hReady : p.Ready rs g) (hS : g.Sound) :
    ∃ s : Splicing K, s.host = g ∧ p.Splices rs s := by
  rcases hReady with ⟨rule, f, hRule, hUse, hOcc, hStands, hJoins⟩
  exact ⟨.ofPlan rule g f p hUse hS hOcc hJoins, rfl, hRule, hStands,
    hJoins.serves hUse hS hOcc, fun _ => rfl⟩

variable [Scalar K]

theorem result_of_carryOut (hReady : p.Ready rs g) (hS : g.Sound) (hAcy : g.Acyclic)
    {step : Step} {g' : Graph K} (hY : Yields (rs.carryOut p) g step g') :
    ∃ s : Splicing K, s.host = g ∧ s.rule ∈ rs.rules ∧ s.Result g' ∧ g'.Acyclic ∧
      ∃ k, g.ops.length = k + s.rule.pattern.ops.length ∧
        g'.ops.length = k + s.rule.replacement.ops.length ∧
        g'.nextId = g.nextId + s.rule.replacement.ops.length := by
  rcases hReady.exists_splices hS with ⟨s, rfl, hSpl⟩
  rcases hSpl.carryOut_spec with ⟨g'', hLay, ⟨hNone, hDone⟩ | ⟨-, _, _, hFails, -⟩⟩
  · obtain ⟨-, rfl⟩ := hY.unique hDone
    exact ⟨s, rfl, mem_of_getElem? hSpl.rule, hSpl.result hLay, hNone hAcy, hSpl.exists_numbers hLay⟩
  · exact absurd hFails hY.not_fails

theorem rearranged_of_fails (hReady : p.Ready rs g) (hS : g.Sound) {fault : Fault}
    {g' : Graph K} (hFails : Fails (rs.carryOut p) g fault g') : g.Rearranged g' := by
  rcases hReady.exists_splices hS with ⟨s, rfl, hSpl⟩
  rcases hSpl.carryOut_spec with ⟨_, -, ⟨-, hDone⟩ | ⟨-, _, _, hThrown, hSame⟩⟩
  · exact absurd hFails hDone.not_fails
  · obtain rfl := congrArg Prod.snd (hFails.symm.trans hThrown)
    exact hSame

end Plan.Ready

end CircuitGraph
