import CircuitGraph.Proofs.Substitution.Cycle
import CircuitGraph.Proofs.Substitution.Layout

/-
  What it does to carry out a plan.

  Taking out, copying and joining never fail for a plan that
  is ready for the graph.
-/

---- Taking Out ----

namespace CircuitGraph

open List CircuitGraph.Graph

namespace Graph

variable {K : Type} {g : Graph K}

/- The operations and wires of `g` are those that were taken out and those of `g'`. -/
structure Divided (g g' : Graph K) (taken : List (Node (Graph K) × List Wire)) : Prop where
  ops : (taken.map Prod.fst ++ g'.ops).Perm g.ops
  wires : (taken.flatMap Prod.snd ++ g'.wires).Perm g.wires

theorem Sound.divided_restrict (hS : g.Sound) {node : Node (Graph K)} (hN : node ∈ g.ops)
    (hLoop : ¬ g.Edge node.id node.id) :
    g.Divided (g.restrict (· != node.id)) [(node, g.incidentWires node.id)] where
  ops := by
    have hUniq : g.ops.Nodup := .of_map _ hS.unique
    have hOthers : (g.ops.filter (fun other => other.id != node.id)).Nodup := hUniq.filter _
    refine (perm_ext_iff_of_nodup (nodup_cons.mpr ⟨by simp, hOthers⟩) hUniq).mpr ?_
    intro other
    simp only [mem_cons, mem_filter, bne_iff_ne]
    constructor
    · rintro (rfl | ⟨hOther, -⟩)
      · exact hN
      · exact hOther
    · intro hOther
      by_cases hSame : other.id = node.id
      · exact .inl (eq_of_key_eq hS.unique hOther hN hSame)
      · exact .inr ⟨hOther, hSame⟩
  wires := by
    have hOthers : (g.restrict (· != node.id)).wires.Nodup := hS.wires_nodup.filter _
    rw [flatMap_singleton]
    refine (perm_ext_iff_of_nodup ((hS.incidentWires_nodup hLoop).append hOthers ?_)
      hS.wires_nodup).mpr ?_
    · intro w hL hR
      have hAt := (hS.mem_incidentWires_iff.mp hL).2
      have hApart := (mem_filter.mp hR).2
      simp only [Bool.and_eq_true, bne_iff_ne] at hApart
      exact hAt.elim hApart.1 hApart.2
    · intro w
      simp only [mem_append, hS.mem_incidentWires_iff, Graph.restrict, mem_filter,
        Bool.and_eq_true, bne_iff_ne]
      tauto

theorem Sound.yields_detach (hS : g.Sound) {s : Slot} (hM : s.toNat ∈ g.opIds)
    (hLoop : ¬ g.Edge s.toNat s.toNat) :
    ∃ entry g', Yields (detach s) g entry g' ∧ Alike (g.restrict (· != s.toNat)) g' ∧
      g.Divided g' [entry] := by
  rcases Option.isSome_iff_exists.mp (isSome_op?_iff.mpr hM) with ⟨node, hN⟩
  rcases hS.yields_removeOp hN hLoop s.toValue with ⟨g', hY, hA⟩
  have hHas : (!g.hasNode s.toNat) = false := by
    rw [hasNode_iff.mpr (mem_nodeIds_of_op hM)]
    rfl
  refine ⟨(node, g.incidentWires s.toNat), g', ?_, hA, ?_⟩
  · unfold detach
    refine .bind rfl ?_
    simp only [hHas, Bool.false_eq_true, if_false]
    exact .bind hY rfl
  · rcases hS.op?_iff.mp hN with ⟨hOp, hId⟩
    rw [← hId] at hLoop hA ⊢
    have hDivided := hS.divided_restrict hOp hLoop
    exact ⟨hA.ops ▸ hDivided.ops, hA.wires ▸ hDivided.wires⟩

theorem Sound.yields_detachAll (hS : g.Sound) {slots : List Slot}
    (hNodup : (slots.map Slot.toNat).Nodup) (hM : ∀ s ∈ slots, s.toNat ∈ g.opIds)
    (hLoop : ∀ s ∈ slots, ¬ g.Edge s.toNat s.toNat) :
    ∃ entries g', Yields (slots.mapM detach) g entries g' ∧
      Alike (g.restrict (fun n => decide (n ∉ slots.map Slot.toNat))) g' ∧
      g.Divided g' entries := by
  induction slots generalizing g with
  | nil =>
    refine ⟨[], g, yields_mapM_nil_iff.mpr ⟨rfl, rfl⟩, .of_parts rfl rfl ?_ ?_ rfl,
      .refl _, .refl _⟩
    · simp [Graph.restrict]
    · simp [Graph.restrict]
  | cons s slots ih =>
    rw [map_cons, nodup_cons] at hNodup
    rcases hS.yields_detach (hM s mem_cons_self) (hLoop s mem_cons_self) with
      ⟨entry, g₁, hFirst, hA₁, hDivided₁⟩
    have hS₁ := (hS.restrict (· != s.toNat)).of_alike hA₁
    have hM₁ : ∀ t ∈ slots, t.toNat ∈ g₁.opIds := by
      intro t hT
      have hNe : t.toNat ≠ s.toNat := by
        intro hEq
        exact hNodup.1 (hEq ▸ mem_map_of_mem hT)
      rcases mem_opIds_iff.mp (hM t (mem_cons_of_mem _ hT)) with ⟨node, hN, hId⟩
      refine mem_opIds_iff.mpr ⟨node, ?_, hId⟩
      rw [hA₁.ops, mem_restrict_ops_iff]
      exact ⟨hN, by simpa [hId] using hNe⟩
    have hLoop₁ : ∀ t ∈ slots, ¬ g₁.Edge t.toNat t.toNat := by
      intro t hT hEdge
      rw [hA₁.edge_iff, edge_restrict_iff] at hEdge
      exact hLoop t (mem_cons_of_mem _ hT) hEdge.1
    rcases ih hS₁ hNodup.2 hM₁ hLoop₁ with ⟨entries, g₂, hRest, hA₂, hDivided₂⟩
    refine ⟨entry :: entries, g₂,
      yields_mapM_cons_iff.mpr ⟨entry, entries, g₁, hFirst, hRest, rfl⟩, ?_, ?_, ?_⟩
    · have hBoth := (hA₁.restrict (fun n => decide (n ∉ slots.map Slot.toNat))).trans hA₂
      rw [restrict_restrict] at hBoth
      refine (Eq.subst (motive := fun keep => Alike (g.restrict keep) g₂) (funext fun n => ?_) hBoth)
      by_cases hEq : n = s.toNat <;> simp [hEq]
    · exact (hDivided₂.ops.cons entry.1).trans hDivided₁.ops
    · rw [flatMap_cons, append_assoc]
      refine (hDivided₂.wires.append_left entry.2).trans ?_
      simpa using hDivided₁.wires

end Graph

---- Putting In ----

variable {K : Type}

theorem map_zipIdx {α β : Type} {key : α → Nat} {xs : List α} (hKeys : (xs.map key).Nodup)
    (start : Nat) (f : α → Nat → β) : (xs.zipIdx start).map (fun entry => f entry.1 entry.2) =
      xs.map (fun x => f x (start + (xs.map key).idxOf (key x))) := by
  refine ext_getElem (by simp) (fun i hL hR => ?_)
  have hLt : i < (xs.map key).length := by simpa using hR
  have hPlace := hKeys.idxOf_getElem i hLt
  rw [getElem_map] at hPlace
  simp [hPlace]

namespace Graph

variable {g : Graph K}

theorem yields_addCopies {nodes : List (Node (Graph K))} (hNodes : ∀ node ∈ nodes, ∀ n,
      Node.Sound ⟨n, node.kind, node.params, node.body.map Graph.copy, none⟩) :
    ∃ g', Yields (nodes.mapM addCopy) g
        ((nodes.zipIdx g.nextId).map (fun entry => (entry.1.id, entry.2))) g' ∧
      Alike { g with
        ops := g.ops ++ (nodes.zipIdx g.nextId).map (fun entry =>
          ⟨entry.2, entry.1.kind, entry.1.params, entry.1.body.map Graph.copy, none⟩)
        nextId := g.nextId + nodes.length } g' := by
  induction nodes generalizing g with
  | nil =>
    refine ⟨g, yields_mapM_nil_iff.mpr ⟨rfl, rfl⟩, .of_parts rfl rfl ?_ rfl rfl⟩
    simp
  | cons node nodes ih =>
    have hAdd := yields_addOp (g := g) (hNodes node mem_cons_self)
    rcases ih (fun other hM => hNodes other (mem_cons_of_mem _ hM))
      (g := { g with nextId := g.nextId + 1 }.insertNode _) with ⟨g', hRest, hA⟩
    refine ⟨g', yields_mapM_cons_iff.mpr ⟨_, _, _, ?_, hRest, rfl⟩, ?_⟩
    · exact .bind hAdd rfl
    · refine .of_parts hA.inputs hA.outputs (hA.ops.trans ?_) hA.wires (hA.nextId.trans ?_)
      · simp [insertNode, zipIdx_cons]
      · simp [insertNode]
        omega

end Graph

---- Joining ----

theorem forM_flatMap {α β ε σ : Type} (xs : List α) (f : α → List β)
    (h : β → ExceptT ε (StateM σ) Unit) :
    xs.forM (fun x => (f x).forM h) = (xs.flatMap f).forM h := by
  induction xs with
  | nil => rfl
  | cons x xs ih =>
    simp only [forM_eq_forM] at ih ⊢
    rw [flatMap_cons, forM_append, ← ih, forM_cons]

theorem forM_congr {α ε σ : Type} {xs : List α} {f h : α → ExceptT ε (StateM σ) Unit}
    (hEach : ∀ x ∈ xs, f x = h x) : xs.forM f = xs.forM h := by
  induction xs with
  | nil => rfl
  | cons x xs ih =>
    have hRest := ih (fun y hM => hEach y (mem_cons_of_mem _ hM))
    simp only [forM_eq_forM] at hRest ⊢
    rw [forM_cons, forM_cons, hEach x mem_cons_self, hRest]

namespace Splicing

variable {s : Splicing K} {p : Plan}

def copyIds (s : Splicing K) : List (Nat × Nat) :=
  s.rule.replacement.sortedOps.map (fun node => (node.id, s.fresh node.id))

theorem valueOf?_copyIds {n : Nat} (hM : n ∈ s.rule.replacement.opIds) :
    valueOf? s.copyIds n = some (s.fresh n) := by
  have hKeys : (s.copyIds.map Prod.fst).Nodup := by
    have hIds : s.copyIds.map Prod.fst = s.rule.replacement.sortedOps.map Node.id := by
      simp [copyIds, Function.comp_def]
    rw [hIds, map_id_sortedOps s.usable.replacement.sound.unique]
    exact sortIds_nodup _
  rcases Graph.mem_opIds_iff.mp hM with ⟨node, hN, rfl⟩
  rw [valueOf?_eq_some_iff hKeys]
  exact mem_map.mpr ⟨node, mem_sortedOps_iff.mpr hN, rfl⟩

theorem spliceSource_eq (hServes : p.Serves s) {w : Wire} (hM : w ∈ s.rule.replacement.wires) :
    Graph.spliceSource p s.copyIds w.src = .ok (s.startPin p w.src) := by
  have hS := s.usable.replacement.sound
  unfold Graph.spliceSource startPin
  split
  · rename_i hInput
    rcases exists_sourcePin hServes hM hInput with ⟨pin, hPin, -⟩
    rw [hPin]
    rfl
  · rename_i hInput
    rw [valueOf?_copyIds ((hS.edge_source ⟨w, hM, rfl, rfl⟩).resolve_left hInput)]

theorem spliceTargets_eq (hServes : p.Serves s) {w : Wire} (hM : w ∈ s.rule.replacement.wires) :
    Graph.spliceTargets p s.copyIds w.dst = .ok (s.endPins p w.dst) := by
  have hS := s.usable.replacement.sound
  unfold Graph.spliceTargets endPins
  split
  · rename_i hOutp
    rcases exists_consumerPins hServes hM hOutp with ⟨pins, hPins, -⟩
    rw [hPins]
    rfl
  · rename_i hOutp
    rw [valueOf?_copyIds ((hS.edge_target ⟨w, hM, rfl, rfl⟩).resolve_left hOutp)]

variable [Scalar K]

theorem forM_spliceWire (hServes : p.Serves s) :
    s.rule.replacement.sortedWires.forM (Graph.spliceWire p s.copyIds) =
      (s.rule.replacement.sortedWires.flatMap (s.wiresOf p)).forM
        (fun w => (Graph.join w.src w.dst : Edit K Unit)) := by
  rw [← forM_flatMap]
  refine forM_congr (fun w hM => ?_)
  have hM := mem_sortedWires_iff.mp hM
  unfold Graph.spliceWire wiresOf
  rw [spliceSource_eq hServes hM, spliceTargets_eq hServes hM]
  simp only [Edit.ofExcept, pure_bind, forM_eq_forM, forM_map]

theorem yields_splice {rs : RuleSet K} (hSpl : p.Splices rs s) {g : Graph K}
    (hA : Graph.Alike (s.host.restrict p.keeps) g) :
    ∃ g', Yields (Graph.splice s.rule.replacement p) g () g' ∧ (s.layout p p.keeps).Alike g' := by
  have hUniq := s.usable.replacement.sound.unique
  have hKeys : (s.rule.replacement.sortedOps.map Node.id).Nodup := by
    rw [map_id_sortedOps hUniq]
    exact sortIds_nodup _
  have hNodes : ∀ node ∈ s.rule.replacement.sortedOps, ∀ n,
      Node.Sound ⟨n, node.kind, node.params, node.body.map Graph.copy, none⟩ := by
    intro node hM n
    have hCopy := sound_copyOf (mem_sortedOps_iff.mp hM)
    exact ⟨hCopy.inner, hCopy.params, hCopy.body, hCopy.owned⟩
  rcases yields_addCopies (g := g) hNodes with ⟨g₁, hCopies, hA₁⟩
  have hNext : g.nextId = s.host.nextId := hA.nextId
  have hPlaces : ∀ node : Node (Graph K),
      g.nextId + (s.rule.replacement.sortedOps.map Node.id).idxOf node.id = s.fresh node.id := by
    intro node
    rw [hSpl.fresh, hNext, map_id_sortedOps hUniq]
  rw [map_zipIdx hKeys g.nextId (fun node n => (node.id, n))] at hCopies
  rw [map_zipIdx hKeys g.nextId (fun node n =>
    (⟨n, node.kind, node.params, node.body.map Graph.copy, none⟩ : Node (Graph K)))] at hA₁
  simp only [hPlaces] at hCopies hA₁
  have hLen : s.rule.replacement.sortedOps.length = s.rule.replacement.ops.length :=
    (mergeSort_perm _ _).length_eq
  have hLay : Graph.Alike (s.layout p p.keeps)
      { g₁ with wires := g₁.wires ++ s.rule.replacement.sortedWires.flatMap (s.wiresOf p) } := by
    refine .of_parts (hA₁.inputs.trans hA.inputs) (hA₁.outputs.trans hA.outputs)
      (hA₁.ops.trans ?_) ?_ (hA₁.nextId.trans ?_)
    · rw [hA.ops]
      rfl
    · rw [hA₁.wires, hA.wires]
      rfl
    · rw [hNext, hLen]
      rfl
  rcases yields_joinAll (hSpl.result hLay).sound with ⟨g', hJoins, hA'⟩
  refine ⟨g', ?_, hLay.trans hA'⟩
  unfold Graph.splice
  refine yields_bind_iff.mpr ⟨s.copyIds, g₁, hCopies, ?_⟩
  rw [forM_spliceWire hSpl.serves]
  exact hJoins

---- Looking for Cycles ----

variable {K : Type} {rs : RuleSet K} {s : Splicing K} {g : Graph K}

def near (s : Splicing K) (p : Plan) (g : Graph K) : List Nat :=
  sortIds (RuleSet.idsSince s.host.nextId g ++ p.consumerNodes.map Slot.toNat)

theorem mem_idsSince_iff (hSpl : p.Splices rs s)
    (hNext : g.nextId = s.host.nextId + s.rule.replacement.ops.length) {n : Nat} :
    n ∈ RuleSet.idsSince s.host.nextId g ↔ s.New n := by
  have hLen := s.usable.replacement.sound.length_opIds
  simp only [RuleSet.idsSince, hNext, Nat.add_sub_cancel_left, mem_map, mem_range]
  constructor
  · rintro ⟨i, hLt, rfl⟩
    rw [← hLen] at hLt
    refine ⟨s.rule.replacement.opIds[i], getElem_mem hLt, ?_⟩
    rw [hSpl.fresh, (Graph.opIds_nodup s.rule.replacement).idxOf_getElem i hLt]
  · rintro ⟨m, hM, rfl⟩
    refine ⟨s.rule.replacement.opIds.idxOf m, ?_, (hSpl.fresh m).symm⟩
    rw [← hLen]
    exact idxOf_lt_length_iff.mpr hM

theorem mem_consumerNodes_iff (hServes : p.Serves s) {n : Nat} :
    n ∈ p.consumerNodes.map Slot.toNat ↔ ∃ j < s.rule.pattern.outputs.length, ∃ i,
      s.Ends (outputId, j) (n, i) := by
  simp only [Plan.consumerNodes, mem_map, mem_flatMap]
  constructor
  · rintro ⟨slot, ⟨pins, hPins, pin, hPin, rfl⟩, rfl⟩
    rcases getElem?_of_mem hPins with ⟨j, hAt⟩
    have hLt : j < s.rule.pattern.outputs.length :=
      hServes.count ▸ (lt_of_getElem? hAt)
    rcases hServes.consumers j hLt with ⟨pins', hAt', -, hEnds⟩
    obtain rfl := eq_of_some hAt hAt'
    exact ⟨j, hLt, pin.index, (hEnds _).mp (mem_map_of_mem hPin)⟩
  · rintro ⟨j, hLt, i, hEnd⟩
    rcases hServes.consumers j hLt with ⟨pins, hAt, -, hEnds⟩
    rcases mem_map.mp ((hEnds _).mpr hEnd) with ⟨pin, hPin, hPlace⟩
    exact ⟨pin.owner, ⟨pins, mem_of_getElem? hAt, pin, hPin, rfl⟩, congrArg Prod.fst hPlace⟩

theorem mem_near_iff (hSpl : p.Splices rs s)
    (hNext : g.nextId = s.host.nextId + s.rule.replacement.ops.length) {n : Nat} :
    n ∈ s.near p g ↔ s.Touched n := by
  rw [near, mem_sortIds, mem_append, mem_idsSince_iff hSpl hNext, mem_consumerNodes_iff hSpl.serves]
  refine or_congr Iff.rfl ?_
  constructor
  · rintro ⟨j, -, i, hEnds⟩
    rw [Ends, if_pos rfl] at hEnds
    rcases hEnds with ⟨q, hExit, hW, hOut⟩
    exact ⟨⟨(s.sound.edge_mem hW.edge).2, hOut⟩, _, inside_image (mem_of_output hExit), hW.edge⟩
  · rintro ⟨hOld, t, ⟨m, hM, rfl⟩, hEdge⟩
    rcases edge_iff_wired.mp hEdge with ⟨k, i, hW⟩
    rcases s.occurs.exists_output hM hW hOld.2 with ⟨j, hExit⟩
    rcases s.usable.pattern.sound.wired_types hExit with ⟨t, -, hType⟩
    refine ⟨j, ?_, i, ?_⟩
    · simpa [Graph.inType?] using (lt_of_getElem? hType)
    · rw [Ends, if_pos rfl]
      exact ⟨(m, k), hExit, hW, hOld.2⟩

theorem searchCycleFrom_near (hSpl : p.Splices rs s) (hLay : (s.layout p p.keeps).Alike g) :
    (g.searchCycleFrom (s.near p g) [] = .ok () ∧ (s.host.Acyclic → g.Acyclic)) ∨
      ∃ t, g.searchCycleFrom (s.near p g) [] = .error (.structural (.closedCycle t)) ∧ ¬ g.Acyclic := by
  have hRes := hSpl.result hLay
  have hNear : ∀ n, n ∈ s.near p g ↔ s.Touched n := fun n => mem_near_iff hSpl hLay.nextId
  have hNodes : ∀ n ∈ s.near p g, n ∈ g.nodeIds := by
    intro n hM
    rw [hRes.mem_nodeIds_iff]
    rcases (hNear n).mp hM with ⟨m, hNew, rfl⟩ | ⟨hOld, -⟩
    · exact .inr ⟨m, hNew, rfl⟩
    · exact .inl hOld
  rcases hRes.sound.searchCycleFrom_ends (s.near p g) (searching_nil _ _) with
    ⟨hOk, hNone⟩ | ⟨before, n, after, hList, -, ⟨⟨t, hError⟩, m, -, hLoop⟩ | ⟨-, hAbsent⟩⟩
  · refine .inl ⟨hOk, fun hAcy n hLoop => ?_⟩
    rcases hAcy.exists_new_cycle (fun _ _ => hRes.edge_or_touched) hLoop with
      ⟨v, hTouched, hCycle⟩
    exact (hNone v ((hNear v).mpr hTouched)).2 ⟨v, .refl, hCycle⟩
  · exact .inr ⟨t, hError, fun hAll => hAll m hLoop⟩
  · exact absurd (hNodes n (by simp [hList])) hAbsent

end Splicing

---- Carrying Out Plans ----

def Plan.Ready (rs : RuleSet K) (p : Plan) (g : Graph K) : Prop :=
  ∃ rule f, rs.rules[p.found.rule]? = some rule ∧ rule.Usable ∧ rule.pattern.Occurs g f ∧
    p.found.Stands rule.pattern f ∧ p.Joins rule.pattern g f

theorem Plan.Ready.of_alike {rs : RuleSet K} {p : Plan} {g g' : Graph K} (hReady : p.Ready rs g)
    (hA : g.Alike g') : p.Ready rs g' := by
  rcases hReady with ⟨rule, f, hRule, hUse, hOcc, hStands, hJoins⟩
  refine ⟨rule, f, hRule, hUse, hOcc.of_alike hA, hStands, ?_, hJoins.width, hJoins.count, ?_⟩
  · simp only [hA.wired_iff]
    exact hJoins.sources
  · simp only [hA.wired_iff]
    exact hJoins.consumers

namespace Splicing

variable [Scalar K] {rs : RuleSet K} {s : Splicing K} {p : Plan}

theorem insertReplacement_spec (hSpl : p.Splices rs s) {g : Graph K}
    (hA : Graph.Alike (s.host.restrict p.keeps) g) : ∃ g', (s.layout p p.keeps).Alike g' ∧
      (((s.host.Acyclic → g'.Acyclic) ∧
          Yields (RuleSet.insertReplacement s.rule.replacement p s.host.nextId) g () g') ∨
        (¬ g'.Acyclic ∧ ∃ cause,
          Fails (RuleSet.insertReplacement s.rule.replacement p s.host.nextId) g
            (.structural cause) g')) := by
  rcases yields_splice hSpl hA with ⟨g', hSplice, hLay⟩
  refine ⟨g', hLay, ?_⟩
  rcases searchCycleFrom_near hSpl hLay with ⟨hOk, hNone⟩ | ⟨t, hError, hCycle⟩
  · exact .inl ⟨hNone, .bind hSplice (.bind rfl (.ofExcept hOk))⟩
  · exact .inr ⟨hCycle, .closedCycle t, hSplice.fails_bind
      (Yields.fails_bind rfl (Edit.fails_ofExcept_iff.mpr ⟨hError, rfl⟩))⟩

end Splicing

---- Plans Carried Out ----

namespace RuleSet

variable {rs : RuleSet K}

def stepOf (rule : Rule K) (p : Plan) (inserted : List Nat) : Step :=
  ⟨p.found.rule, rule.name, p.found.root, p.found.nodes, inserted,
    (sortSlots (inserted.map .number ++ p.sourceNodes ++ p.consumerNodes)).filter
      (fun s => isOpId s.toNat), []⟩

variable [Scalar K]

section

variable {p : Plan} {g g' : Graph K} {step : Step} (hY : Yields (rs.carryOut p) g step g')

include hY

theorem carryOut_cases : ∃ rule removed g₁, rs.rules[p.found.rule]? = some rule ∧
      Yields (p.found.nodes.mapM Graph.detach) g removed g₁ ∧
      Yields (insertReplacement rule.replacement p g₁.nextId) g₁ () g' ∧
      step = stepOf rule p (idsSince g₁.nextId g') := by
  unfold carryOut at hY
  rcases hY.ofExcept_bind with ⟨rule, hRule, hTaking⟩
  rcases yields_bind_iff.mp hTaking with ⟨removed, g₁, hDetach, hReading⟩
  have hTrying := hReading.get_bind
  rcases yields_bind_iff.mp hTrying with ⟨_, g₂, hTry, hLast⟩
  have hPure := hLast.get_bind
  obtain ⟨rfl, rfl⟩ := yields_pure_iff.mp hPure
  rcases yields_tryCatch_iff.mp hTry with hInsert | ⟨fault, g₃, -, hHandle⟩
  · exact ⟨rule, removed, _, rule_eq_ok_iff.mp hRule, hDetach, hInsert, rfl⟩
  · -- a handled fault is thrown again
    cases fault with
    | structural cause =>
      rcases yields_bind_iff.mp hHandle with ⟨_, _, -, hBack⟩
      rcases yields_bind_iff.mp hBack with ⟨_, _, -, hThrow⟩
      simp at hThrow
    | _ => simp at hHandle

theorem path_of_carryOut : step.path = [] := by
  rcases carryOut_cases hY with ⟨_, _, _, -, -, -, rfl⟩
  rfl

theorem rule_of_carryOut : step.rule = p.found.rule := by
  rcases carryOut_cases hY with ⟨_, _, _, -, -, -, rfl⟩
  rfl

end

end RuleSet

theorem Splicing.not_edge_inside {s : Splicing K} {n : Nat} (hIns : s.Inside n) :
    ¬ s.host.Edge n n := by
  intro hEdge
  rcases hIns with ⟨m, hM, rfl⟩
  rcases edge_iff_wired.mp hEdge with ⟨i, j, hW⟩
  rcases wired_image_cases hM hW with ⟨k, hEntry, hSrc⟩ | ⟨m', hM', k, hIn, hSame⟩
  · rcases s.usable.pattern.sound.wired_types hEntry with ⟨t, hType, -⟩
    have hOut := (source_spec (s := s) (t := t) (by simpa [Graph.outType?] using hType)).1
    rw [← hSrc] at hOut
    exact hOut (inside_image hM)
  · have hEq := s.occurs.injective _ hM _ hM' (congrArg Prod.fst hSame)
    exact s.usable.patternFormed.acyclic m (.single (hEq ▸ hIn.edge))

namespace Plan.Splices

variable {rs : RuleSet K} {p : Plan} {s : Splicing K}

theorem yields_detachAll (hSpl : p.Splices rs s) :
    ∃ taken g', Yields (p.found.nodes.mapM Graph.detach) s.host taken g' ∧
      Graph.Alike (s.host.restrict p.keeps) g' ∧ s.host.Divided g' taken := by
  have hNodup : (p.found.nodes.map Slot.toNat).Nodup := by
    refine hSpl.stands.ids.nodup_iff.mpr ((sortIds_nodup _).map_on ?_)
    exact fun n hN m hM hEq => s.occurs.injective n hN m hM hEq
  have hIns : ∀ slot ∈ p.found.nodes, s.Inside slot.toNat := fun slot hSlot =>
    hSpl.inside_iff.mpr (mem_map_of_mem hSlot)
  exact s.sound.yields_detachAll hNodup (fun slot hSlot => (hIns slot hSlot).mem_opIds)
    (fun slot hSlot => Splicing.not_edge_inside (hIns slot hSlot))

end Plan.Splices

end CircuitGraph
