import CircuitGraph.Proofs.Graph.Alike

/-
  What edits do.

  Each edit of a sound level is described by the level that it
  leaves, up to version and ranks.
-/

---- Primitive Edits ----

namespace CircuitGraph

open List

variable {keep : Nat → Bool} {w : Wire} {ws : List Wire} {t : WireType}

namespace Graph

variable {K : Type} {g : Graph K}

theorem alike_insertNode (g : Graph K) (node : Node (Graph K)) :
    Alike { g with ops := g.ops ++ [node] } (g.insertNode node) :=
  rfl

theorem alike_dropRanks (g : Graph K) : Alike g g.dropRanks :=
  rfl

theorem alike_insertWire [Scalar K] (g : Graph K) (w : Wire) :
    Alike { g with wires := g.wires ++ [w] } (g.insertWire w) := by
  unfold insertWire
  split <;> rfl

theorem alike_eraseWire (g : Graph K) (w : Wire) :
    Alike { g with wires := g.wires.erase w } (g.eraseWire w) :=
  rfl

theorem alike_eraseNode (g : Graph K) (n : Nat) :
    Alike { g with ops := g.ops.filter (fun node => node.id != n) } (g.eraseNode n) :=
  rfl

---- Parts of a Level ----

/- The level with only those operations whose ids are kept, and the wires between them. -/
def restrict (g : Graph K) (keep : Nat → Bool) : Graph K :=
  { g with
    ops := g.ops.filter (fun node => keep node.id)
    wires := g.wires.filter (fun w => keep w.src.node && keep w.dst.node) }

theorem restrict_restrict (g : Graph K) (keep also : Nat → Bool) :
    (g.restrict keep).restrict also = g.restrict (fun n => keep n && also n) := by
  simp only [restrict, filter_filter]
  congr 2
  · funext node
    exact Bool.and_comm _ _
  · funext w
    cases keep w.src.node <;> cases keep w.dst.node <;> simp

theorem Alike.restrict {g' : Graph K} (hA : g.Alike g') (keep : Nat → Bool) :
    (g.restrict keep).Alike (g'.restrict keep) := by
  refine .of_parts hA.inputs hA.outputs ?_ ?_ hA.nextId
  · simp only [Graph.restrict, hA.ops]
  · simp only [Graph.restrict, hA.wires]

theorem mem_restrict_ops_iff {node : Node (Graph K)} :
    node ∈ (g.restrict keep).ops ↔ node ∈ g.ops ∧ keep node.id = true := by
  simp [restrict]

theorem wired_restrict_iff {src dst : Nat × Nat} : (g.restrict keep).Wired src dst ↔
      g.Wired src dst ∧ keep src.1 = true ∧ keep dst.1 = true := by
  simp only [Wired, restrict, mem_filter, Bool.and_eq_true]
  constructor
  · rintro ⟨w, ⟨hM, hKeep⟩, rfl, rfl⟩
    exact ⟨⟨w, hM, rfl, rfl⟩, hKeep⟩
  · rintro ⟨⟨w, hM, rfl, rfl⟩, hKeep⟩
    exact ⟨w, ⟨hM, hKeep⟩, rfl, rfl⟩

theorem edge_restrict_iff {u v : Nat} :
    (g.restrict keep).Edge u v ↔ g.Edge u v ∧ keep u = true ∧ keep v = true := by
  rw [edge_iff_wired, edge_iff_wired]
  simp only [wired_restrict_iff]
  constructor
  · rintro ⟨i, j, hW, hKeep⟩
    exact ⟨⟨i, j, hW⟩, hKeep⟩
  · rintro ⟨⟨i, j, hW⟩, hKeep⟩
    exact ⟨i, j, hW, hKeep⟩

theorem Sound.restrict (hS : g.Sound) (keep : Nat → Bool) : (g.restrict keep).Sound := by
  have hWires := hS.restrictWires
    (filter_sublist (p := fun w => keep w.src.node && keep w.dst.node))
  refine hWires.filterOps keep (fun w hM => ?_)
  simpa using (mem_filter.mp hM).2

---- Removal ----

namespace Sound

theorem yields_cut (hS : g.Sound) (hM : w ∈ g.wires) : Yields (cut w) g () (g.eraseWire w) := by
  have hFnd : g.wires.find? w.same = some w := by
    rcases hSea : g.wires.find? w.same with _ | v
    · have := find?_eq_none.mp hSea w hM
      simp [Wire.same, Pin.same] at this
    · have hSame : w.same v = true := find?_some hSea
      have hDst : w.dst.place = v.dst.place := by
        simp only [Wire.same, Pin.same, Bool.and_eq_true, beq_iff_eq] at hSame
        exact hSame.2
      rw [hS.wire_eq_of_dst hM (mem_of_find?_eq_some hSea) hDst]
  unfold cut
  rw [yields_bind_iff]
  refine ⟨g, g, rfl, ?_⟩
  simp [hFnd]

theorem mem_incidentWires_iff (hS : g.Sound) {n : Nat} :
    w ∈ g.incidentWires n ↔ w ∈ g.wires ∧ (w.src.node = n ∨ w.dst.node = n) := by
  simp only [incidentWires, mem_append, mem_filterMap, mem_flatMap, mem_range,
    hS.wireInto?_iff, mem_wiresFrom_iff]
  constructor
  · rintro (⟨i, -, hM, hDst⟩ | ⟨i, -, hM, hSrc⟩)
    · exact ⟨hM, .inr (congrArg Prod.fst hDst)⟩
    · exact ⟨hM, .inl (congrArg Prod.fst hSrc)⟩
  · rintro ⟨hM, rfl | rfl⟩ <;> rcases hS.typed w hM with ⟨t, hOut, hIn⟩
    · exact .inr ⟨w.src.index, (lt_of_getElem? hOut), hM, rfl⟩
    · exact .inl ⟨w.dst.index, (lt_of_getElem? hIn), hM, rfl⟩

theorem incidentWires_nodup (hS : g.Sound) {n : Nat} (hLoop : ¬ g.Edge n n) :
    (g.incidentWires n).Nodup := by
  rw [incidentWires, nodup_append]
  refine ⟨?_, ?_, ?_⟩
  · refine List.Nodup.filterMap ?_ nodup_range
    intro i j w hL hR
    have hI := (hS.wireInto?_iff.mp hL).2
    have hJ := (hS.wireInto?_iff.mp hR).2
    exact congrArg Prod.snd (hI.symm.trans hJ)
  · refine nodup_flatMap.mpr ⟨fun i _ => hS.wires_nodup.filter _, ?_⟩
    refine nodup_range.imp ?_
    intro i j hNe w hL hR
    have hI := (mem_wiresFrom_iff.mp hL).2
    have hJ := (mem_wiresFrom_iff.mp hR).2
    exact hNe (congrArg Prod.snd (hI.symm.trans hJ))
  · rintro v hL w hR rfl
    rcases mem_filterMap.mp hL with ⟨i, -, hInto⟩
    rcases mem_flatMap.mp hR with ⟨j, -, hFrom⟩
    rcases hS.wireInto?_iff.mp hInto with ⟨hM, hDst⟩
    have hSrc := (mem_wiresFrom_iff.mp hFrom).2
    exact hLoop ⟨v, hM, congrArg Prod.fst hSrc, congrArg Prod.fst hDst⟩

theorem yields_cutAll (hS : g.Sound) (hM : ∀ w ∈ ws, w ∈ g.wires) (hNodup : ws.Nodup) :
    ∃ g', Yields (ws.forM cut) g () g' ∧
      Alike { g with wires := g.wires.filter (fun v => decide (v ∉ ws)) } g' := by
  induction ws generalizing g with
  | nil =>
    refine ⟨g, yields_forM_nil_iff.mpr rfl, .of_parts rfl rfl rfl ?_ rfl⟩
    simp
  | cons w ws ih =>
    rw [nodup_cons] at hNodup
    have hFirst := hS.yields_cut (hM w mem_cons_self)
    have hErased : (g.eraseWire w).Sound :=
      (hS.restrictWires erase_sublist).of_alike (alike_eraseWire g w)
    have hRest : ∀ v ∈ ws, v ∈ (g.eraseWire w).wires := by
      intro v hTail
      refine (mem_erase_of_ne ?_).mpr (hM v (mem_cons_of_mem _ hTail))
      rintro rfl
      exact hNodup.1 hTail
    rcases ih hErased hRest hNodup.2 with ⟨g', hY, hA⟩
    refine ⟨g', yields_forM_cons_iff.mpr ⟨_, hFirst, hY⟩, Alike.trans ?_ hA⟩
    refine .of_parts rfl rfl rfl ?_ rfl
    simp only [eraseWire, hS.wires_nodup.erase_eq_filter, filter_filter]
    congr 1
    funext v
    by_cases hEq : v = w <;> simp [hEq]

theorem yields_removeOp (hS : g.Sound) {n : Nat} {node : Node (Graph K)}
    (hN : g.op? n = some node) (hLoop : ¬ g.Edge n n) (id : Value) :
    ∃ g', Yields (removeOp n id true) g node g' ∧ Alike (g.restrict (· != n)) g' := by
  have hM : ∀ w ∈ g.incidentWires n, w ∈ g.wires := fun w hIncident =>
    (hS.mem_incidentWires_iff.mp hIncident).1
  rcases hS.yields_cutAll hM (hS.incidentWires_nodup hLoop) with ⟨g₁, hCut, hA⟩
  refine ⟨g₁.eraseNode n, ?_, ?_⟩
  · unfold removeOp
    rw [yields_bind_iff]
    refine ⟨g, g, rfl, ?_⟩
    simp only [hN, Bool.not_true, Bool.and_false, Bool.false_eq_true, if_false]
    refine .bind hCut (yields_bind_iff.mpr ⟨⟨⟩, g₁.eraseNode n, ?_, ?_⟩)
    · exact yields_modify_iff.mpr rfl
    · exact rfl
  · refine .of_parts hA.inputs hA.outputs ?_ ?_ hA.nextId
    · simp [eraseNode, Graph.restrict, hA.ops]
    · simp only [eraseNode, Graph.restrict, hA.wires]
      refine filter_congr (fun w hWire => ?_)
      rw [Bool.eq_iff_iff]
      simp [hS.mem_incidentWires_iff, hWire]

end Sound

---- Additions ----

theorem kindFault?_eq_none_iff {kind : Kind} {hasBody : Bool} :
    kindFault? kind hasBody = none ↔ kind.isBoundary = false ∧ kind.isContainer = hasBody := by
  unfold kindFault?
  cases kind.isBoundary <;> cases kind.isContainer <;> cases hasBody <;> simp

theorem ends_addNodeWith (kind : Kind) (params : Except Fault (List Param)) (body : Option (Graph K))
    (enclosing : Option Signature) (g : Graph K) : Ends (addNodeWith kind params body enclosing) g
      (fun n g' => n = g.nextId ∧ kindFault? kind (body.isSome || enclosing.isSome) = none ∧
        ∃ ps, params = .ok ps ∧ ps.length = kind.arity ∧
          g' = { g with nextId := n + 1 }.insertNode ⟨n, kind, ps, body, enclosing⟩)
      (fun fault g' => g' = g ∧ (params = .error fault ∨ ∃ cause, fault = .argument cause)) := by
  unfold addNodeWith
  split
  · exact .throw_bind ⟨rfl, .inr ⟨_, rfl⟩⟩
  · rename_i hNone
    refine .ofExcept_bind (fun ps hParams => ?_) (fun _ hFault => ⟨rfl, .inl hFault⟩)
    refine .of_ite (fun _ => .throw_bind ⟨rfl, .inr ⟨_, rfl⟩⟩) (fun hCount => ?_)
    exact .get_bind (.set_bind (.of_pure ⟨rfl, Option.eq_none_iff_forall_not_mem.mpr hNone, ps, hParams,
      not_not.mp hCount, rfl⟩))

theorem yields_addOp {kind : Kind} {params : List Param} {body : Option (Graph K)}
    (hS : ∀ n, Node.Sound ⟨n, kind, params, body, none⟩) :
    Yields (addOp kind params body) g g.nextId
      ({ g with nextId := g.nextId + 1 }.insertNode ⟨g.nextId, kind, params, body, none⟩) := by
  have hN := hS 0
  have hKind : kindFault? kind (body.isSome || (none : Option Signature).isSome) = none := by
    rw [kindFault?_eq_none_iff]
    refine ⟨hN.inner, hN.body.trans ?_⟩
    cases body <;> rfl
  have hCount : ¬ params.length ≠ kind.arity := fun hNe => hNe hN.params
  unfold addOp addNodeWith
  simp only [hKind]
  refine yields_bind_iff.mpr ⟨params, g, ?_, ?_⟩
  · exact .ofExcept rfl
  · rw [if_neg hCount]
    refine .bind rfl ?_
    refine .bind rfl ?_
    exact rfl

theorem pinType_eq_ok_iff {p : Pin} {side : Side} :
    g.pinType side p = .ok t ↔ (g.pinTypes p.node side)[p.index]? = some t := by
  constructor
  · intro hType
    unfold pinType at hType
    split at hType
    · simp at hType
    · split at hType
      · rename_i hSome
        rw [hSome, Except.ok.inj hType]
      · simp at hType
  · intro hType
    have hN : g.hasNode p.node = true := by
      rw [hasNode_iff]
      refine mem_nodeIds_of_signature (fun hSig => ?_)
      cases side <;> simp [pinTypes, hSig] at hType
    simp [pinType, hN, hType]

variable [Scalar K]

/- A wire can be put between two free pins of one type, whatever they are called. -/
theorem yields_link (hFree : ∀ v ∈ g.wires, v.dst.place ≠ w.dst.place)
    (hLin : t ≠ .bool → ∀ v ∈ g.wires, v.src.place ≠ w.src.place) (src dst : PinName) :
    Yields (link src dst w t t) g w (g.insertWire w) := by
  have hInto : (g.wireInto? w.dst.node w.dst.index).isSome = false := by
    rw [Option.isSome_eq_false_iff, Option.isNone_iff_eq_none, wireInto?, find?_eq_none]
    intro v hM hPlace
    refine hFree v hM ?_
    simpa [Pin.place] using hPlace
  have hFrom : (!t.copyable && !(g.wiresFrom w.src.node w.src.index).isEmpty) = false := by
    cases t with
    | bool => rfl
    | _ =>
      have hNone : g.wiresFrom w.src.node w.src.index = [] := by
        rw [eq_nil_iff_forall_not_mem]
        intro v hM
        rcases mem_wiresFrom_iff.mp hM with ⟨hM, hSrc⟩
        exact hLin (by decide) v hM hSrc
      simp [hNone]
  unfold link
  refine .bind rfl ?_
  simp only [ne_eq, not_true, if_false, hInto, hFrom, Bool.false_eq_true]
  refine .bind rfl ?_
  exact rfl

theorem yields_join (hOut : g.outType? w.src.place = some t)
    (hIn : g.inType? w.dst.place = some t) (hFree : ∀ v ∈ g.wires, v.dst.place ≠ w.dst.place)
    (hLin : t ≠ .bool → ∀ v ∈ g.wires, v.src.place ≠ w.src.place) :
    Yields (join w.src w.dst) g () (g.insertWire w) := by
  unfold join
  refine .bind rfl ?_
  refine .bind (.ofExcept (pinType_eq_ok_iff.mpr hOut)) ?_
  refine .bind (.ofExcept (pinType_eq_ok_iff.mpr hIn)) ?_
  exact .bind (yields_link hFree hLin _ _) rfl

omit [Scalar K] in
theorem Sound.pins_free (hS : ({ g with wires := g.wires ++ w :: ws } : Graph K).Sound) :
    ∃ t, g.outType? w.src.place = some t ∧ g.inType? w.dst.place = some t ∧
      (∀ v ∈ g.wires, v.dst.place ≠ w.dst.place) ∧
      (t ≠ .bool → ∀ v ∈ g.wires, v.src.place ≠ w.src.place) := by
  have hM : w ∈ g.wires ++ w :: ws := by simp
  rcases hS.typed w hM with ⟨t, hOut, hIn⟩
  have hSingle := hS.single
  simp only [map_append, map_cons, nodup_append, nodup_cons] at hSingle
  have hFree : ∀ v ∈ g.wires, v.dst.place ≠ w.dst.place := fun v hOld =>
    hSingle.2.2 _ (mem_map_of_mem hOld) _ mem_cons_self
  refine ⟨t, hOut, hIn, hFree, fun hType v hOld hSrc => ?_⟩
  have hEq := hS.linear v (mem_append_left _ hOld) w hM hSrc (by rw [hSrc, hOut]; simpa using hType)
  exact hFree v hOld (by rw [hEq])

theorem yields_joinAll (hS : ({ g with wires := g.wires ++ ws } : Graph K).Sound) :
    ∃ g', Yields (ws.forM (fun w => join w.src w.dst)) g () g' ∧
      Alike { g with wires := g.wires ++ ws } g' := by
  induction ws generalizing g with
  | nil =>
    refine ⟨g, yields_forM_nil_iff.mpr rfl, .of_parts rfl rfl rfl ?_ rfl⟩
    simp
  | cons w ws ih =>
    rcases hS.pins_free with ⟨t, hOut, hIn, hFree, hLin⟩
    have hStep := yields_join (g := g) hOut hIn hFree hLin
    have hNext := alike_insertWire g w
    have hSame : Alike { g with wires := g.wires ++ w :: ws }
        { g.insertWire w with wires := (g.insertWire w).wires ++ ws } := by
      refine .of_parts hNext.inputs hNext.outputs hNext.ops ?_ hNext.nextId
      simp [hNext.wires]
    rcases ih (hS.of_alike hSame) with ⟨g', hY, hA⟩
    exact ⟨g', yields_forM_cons_iff.mpr ⟨_, hStep, hY⟩, hSame.trans hA⟩

end Graph

end CircuitGraph
