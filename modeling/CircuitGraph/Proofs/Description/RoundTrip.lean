import CircuitGraph.Proofs.Description.Reading
import CircuitGraph.Proofs.Graph.Renumbering

/-
  Descriptions that are read back.

  The description of a graph lists the operations of a level
  under the ids that they have, which may leave gaps.

  Main declarations:
    * `Graph.Readable`
    * `describe`: a description with other ids
    * `ofDescription_toDescription`
-/

---- Readable Pins ----

namespace CircuitGraph

open List

/-
  A pin that a description can give: a node beside the
  boundary is spelled by a value that is equal to its number,
  and the place is spelled by one that is a place in a list.
-/
structure Pin.Readable (p : Pin) : Prop where
  owner : isOpId p.node = true → p.owner.toValue.natural? = some p.node
  slot : p.slot.toValue.position? = some (p.index : Int)

instance (p : Pin) : Decidable p.Readable :=
  decidable_of_iff ((isOpId p.node = true → p.owner.toValue.natural? = some p.node) ∧
      p.slot.toValue.position? = some (p.index : Int))
    ⟨fun h => ⟨h.1, h.2⟩, fun h => ⟨h.owner, h.slot⟩⟩

/- A graph whose pins a description can give, and the places of its nested graphs. -/
structure Graph.Readable {K : Type} (g : Graph K) : Prop where
  pins : ∀ w ∈ g.wires, w.src.Readable ∧ w.dst.Readable
  places : ∀ node ∈ g.ops, node.body.isSome = true → node.id < Nat.pow 10 Json.digitLimit

instance {K : Type} (g : Graph K) : Decidable g.Readable :=
  decidable_of_iff ((∀ w ∈ g.wires, w.src.Readable ∧ w.dst.Readable) ∧
      ∀ node ∈ g.ops, node.body.isSome = true → node.id < Nat.pow 10 Json.digitLimit)
    ⟨fun h => ⟨h.1, h.2⟩, fun h => ⟨h.pins, h.places⟩⟩

theorem Pin.Readable.renumber {p : Pin} (hReadable : p.Readable) (π : Nat → Nat) :
    (p.renumber π).Readable where
  owner _ := by
    simp [Pin.renumber, Pin.node, Slot.toNat, Slot.toValue, Value.natural?, Value.integer?]
  slot := hReadable.slot

theorem Pin.Readable.ofReference {p : Pin} (hReadable : p.Readable) (hOp : isOpId p.node = true) :
    Label.ofReference p.owner.toValue = .ok (some (.number p.node)) := by
  have hInteger : p.owner.toValue.integer? = some (p.node : Int) := by
    rcases Option.bind_eq_some_iff.mp (hReadable.owner hOp) with ⟨i, hInteger, hNatural⟩
    rw [hInteger]
    split at hNatural
    · rw [← Option.some.inj hNatural, Int.toNat_of_nonneg ‹0 ≤ i›]
    · cases hNatural
  cases hCase : p.owner <;> rw [hCase] at hInteger
  case number m => rw [← Option.some.inj hInteger]; rfl
  case truth b => rw [← Option.some.inj hInteger]; rfl
  all_goals exact congrArg (fun i => Except.ok (i.map Label.number)) hInteger

theorem Pin.Readable.spelled {p : Pin} (hReadable : p.Readable) :
    Slot.spelled p.index p.slot.toValue = p.slot := by
  have hSlot := hReadable.slot
  unfold Pin.index
  cases hCase : p.slot with
  | number n => rfl
  | truth b => rfl
  | _ => simp [hCase, Slot.toValue, Value.position?] at hSlot

namespace Graph

variable {K : Type} {g : Graph K}

theorem readable_of_typedPin {side : Side} {n k : Nat} {i : Value} {p : Pin × WireType}
    (hPin : g.typedPin n ⟨side, .whole k, i⟩ = .ok p) : p.1.Readable := by
  unfold typedPin at hPin
  split at hPin
  · cases hPin
  · rename_i place hPlace
    split at hPin
    · obtain rfl := Except.ok.inj hPin
      refine ⟨fun _ => ?_, ?_⟩
      · simp [Slot.spelled, Slot.toValue, Pin.node, Slot.toNat, Value.natural?, Value.integer?]
      · cases i with
        | whole z => rfl
        | truth b => rfl
        | _ => cases hPlace
    · cases hPin

theorem pins_of_ofDescriptionAt [Scalar K] {place : String} {v : Value}
    (hRead : ofDescriptionAt place v = .ok g) :
    Everywhere (fun h => ∀ w ∈ h.wires, w.src.Readable ∧ w.dst.Readable) g := by
  refine everywhere_of_ofDescriptionAt (fun _ _ _ hM => nomatch hM) ?_ ?_ hRead
  · intro g kind params body hReadable
    exact hReadable
  · intro g n m k l i j p q hSrc hDst hReadable w hM
    rw [(alike_insertWire g ⟨p.1, q.1⟩).wires] at hM
    rcases mem_append.mp hM with hOld | hNew
    · exact hReadable w hOld
    · rw [mem_singleton.mp hNew]
      exact ⟨readable_of_typedPin hSrc, readable_of_typedPin hDst⟩

end Graph

---- Names ----

theorem WireType.ofName?_name (t : WireType) : WireType.ofName? t.name = some t := by
  cases t <;> rfl

theorem Kind.ofName?_name (kind : Kind) : Kind.ofName? kind.name = some kind := by
  cases kind <;> rfl

namespace Description

theorem wireTypes_exportTypes (place : String) (ts : List WireType) :
    wireTypes place (Graph.exportTypes ts) = .ok ts := by
  have hRead : (ts.map (fun t => Value.text t.name)).mapM wireType = .ok ts := by
    rw [mapM_eq_ok_iff, forall₂_map_left_iff, forall₂_same]
    intro t _
    simp [wireType, WireType.ofName?_name]
  simp [wireTypes, Graph.exportTypes, Value.elements?, hRead]

end Description

---- Descriptions with Other Numbers ----

namespace Graph

variable {K : Type} {g : Graph K}

def describe (number : Graph K → Nat → Nat) (g : Graph K) : Value :=
  g.fold (fun g bodies =>
    .record [("inputs", exportTypes g.inputs), ("outputs", exportTypes g.outputs),
      ("nodes", .list (g.sortedOps.map (fun node =>
        describeNode (number g) (valueOf? bodies node.id) node))),
      ("wires", .list (g.sortedWires.map (fun w => exportWire (w.renumber (number g)))))])

theorem describe_eq (hUniq : (g.ops.map Node.id).Nodup) (number : Graph K → Nat → Nat) :
    g.describe number =
      .record [("inputs", exportTypes g.inputs), ("outputs", exportTypes g.outputs),
        ("nodes", .list (g.sortedOps.map (fun node =>
          describeNode (number g) (node.body.map (describe number)) node))),
        ("wires", .list (g.sortedWires.map (fun w => exportWire (w.renumber (number g)))))] := by
  have hNodes : g.sortedOps.map (fun node => describeNode (number g)
        (valueOf? (g.bodyValues (describe number)) node.id) node) =
      g.sortedOps.map (fun node =>
        describeNode (number g) (node.body.map (describe number)) node) := by
    refine map_congr_left (fun node hN => ?_)
    rw [valueOf?_map_bodies hUniq (describe number) (mem_sortedOps_iff.mp hN)]
  rw [← hNodes]
  exact fold_eq _ g

theorem describeNode_renew (number : Nat → Nat) (body : Option (Graph K)) (inner : Option Value)
    (node : Node (Graph K)) :
    describeNode (fun n => n) inner (node.renew number body) = describeNode number inner node := by
  simp [describeNode, Node.renew, Param.values]

theorem Intact.toDescription_renewed (hI : g.Intact) :
    g.renewed.toDescription = g.describe newId := by
  induction hI with
  | intro g hS hBodies ih =>
    have hNodes : (g.renewWith (fun node => node.body.map Graph.renewed)).ops.map entryOf =
        g.sortedOps.map (fun node =>
          describeNode g.newId (node.body.map (describe newId)) node) := by
      change (g.sortedOps.map _).map _ = _
      rw [map_map]
      refine map_congr_left (fun node hN => ?_)
      have hB : (node.body.map Graph.renewed).map toDescription =
          node.body.map (describe newId) := by
        rw [Option.map_map]
        exact Option.map_congr (fun body hB => ih node (mem_sortedOps_iff.mp hN) body hB)
      rw [← hB]
      exact describeNode_renew _ _ _ node
    have hWires : (g.renewWith (fun node => node.body.map Graph.renewed)).wires.map exportWire =
        g.sortedWires.map (fun w => exportWire (w.renumber g.newId)) := by
      change (g.sortedWires.map _).map _ = _
      rw [map_map]
      rfl
    rw [renewed_eq hS.unique, toDescription_level (unique_renewWith hS),
      describe_eq hS.unique, sortedOps_renewWith hS, sortedWires_renewWith hS]
    simp only [hNodes, hWires]
    rfl

---- Reading Labels ----

def labelsOf (number : Nat → Nat) (ops : List (Node (Graph K))) : LabelMap :=
  LabelMap.boundary ++ ops.map (fun node => (.number node.id, number node.id))

theorem find?_labelsOf (number : Nat → Nat) (ops : List (Node (Graph K))) (n : Nat) :
    (labelsOf number ops).find? (.number n) =
      if n ∈ ops.map Node.id then some (number n) else none := by
  have hOps : LabelMap.find? (labelsOf number ops) (.number n) =
      LabelMap.find? (ops.map (fun node => (.number node.id, number node.id))) (.number n) := rfl
  rw [hOps]
  induction ops with
  | nil => rfl
  | cons first rest ih =>
    unfold LabelMap.find? at ih ⊢
    by_cases hSame : first.id = n
    · simp [hSame]
    · have hNe : ¬ n = first.id := fun hEq => hSame hEq.symm
      simpa [hSame, hNe] using ih rfl

theorem resolve_exportLabel {number : Nat → Nat} {ops : List (Node (Graph K))} {p : Pin}
    (hReadable : p.Readable) (hInput : number inputId = inputId)
    (hOutp : number outputId = outputId) (hOp : isOpId p.node = true → p.node ∈ ops.map Node.id) :
    (labelsOf number ops).resolve (exportLabel p.owner) = .ok (number p.node) := by
  unfold exportLabel
  by_cases hIn : p.owner.toNat = inputId
  · rw [if_pos hIn, Pin.node, hIn, hInput]
    rfl
  · by_cases hOut : p.owner.toNat = outputId
    · rw [if_neg hIn, if_pos hOut, Pin.node, hOut, hOutp]
      rfl
    · rw [if_neg hIn, if_neg hOut]
      have hIsOp : isOpId p.node = true := by
        refine decide_eq_true ?_
        simp only [Pin.node, inputId, outputId] at hIn hOut ⊢
        omega
      have hLabel := hReadable.ofReference hIsOp
      unfold LabelMap.resolve
      rw [hLabel]
      have hFnd : (some (Label.number p.node)).bind (labelsOf number ops).find? =
          some (number p.node) := by
        rw [Option.bind_some, find?_labelsOf, if_pos (hOp hIsOp)]
      simp only [bind, Except.bind, hFnd]
      rfl

---- Reading Operations ----

theorem isPresent_toDescription (g : Graph K) : g.toDescription.isPresent = true := by
  rw [toDescription, fold_eq]
  rfl

theorem entryBody?_entryOf (node : Node (Graph K)) :
    Description.entryBody? (entryOf node) = node.body.map toDescription := by
  unfold entryOf
  cases node.body with
  | none => rfl
  | some body =>
    have hPresent := isPresent_toDescription body
    unfold Description.entryBody?
    rw [show Value.field? _ "body" = some body.toDescription from rfl]
    cases hValue : body.toDescription <;> simp_all [Value.isPresent]

theorem entryLabel_entryOf {number : Nat → Nat} {done : List (Node (Graph K))}
    {node : Node (Graph K)} (hNew : node.id ∉ done.map Node.id) (place : String) :
    Description.entryLabel place (labelsOf number done) (entryOf node) =
      .ok (.whole node.id, .number node.id) := by
  change (if ((labelsOf number done).find? (.number node.id)).isSome then
    (.error (.description place (.badLabel (.whole node.id))) : Except Fault (Value × Label))
    else .ok (.whole node.id, .number node.id)) = _
  rw [find?_labelsOf, if_neg hNew]
  rfl

theorem entryKind_entryOf (place : String) (label : Value) (node : Node (Graph K)) :
    Description.entryKind place label (entryOf node) = .ok node.kind := by
  unfold Description.entryKind
  rw [show ((entryOf node).field? "op").getD .null = .text node.kind.name from rfl]
  simp only [Kind.ofName?_name]

theorem entryParams_entryOf (node : Node (Graph K)) : Description.entryParams (entryOf node) =
      .ok ((Param.values node.params).map Value.decimal) := rfl

theorem toParams_values (params : List Param) :
    Value.toParams ((Param.values params).map Value.decimal) =
      .ok (params.map (fun p => ⟨p.value, true⟩)) := by
  unfold Value.toParams Param.values
  rw [mapM_eq_ok_iff, map_map, forall₂_map_left_iff, forall₂_map_right_iff, forall₂_same]
  intro p _
  rfl

theorem insertNode_made {ops : List (Node (Graph K))} {node : Node (Graph K)}
    (inputs outputs : List WireType) :
    ({ made inputs outputs ops [] with nextId := ops.length + 2 + 1 } : Graph K).insertNode node =
      made inputs outputs (ops ++ [node]) [] := by
  simp [made, insertNode, Graph.empty, Nat.add_right_comm]

variable [Scalar K]

/- The entry of an operation adds it to those that were made before, under the next number. -/
theorem yields_addEntry {number : Nat → Nat} (done ops : List (Node (Graph K)))
    {node : Node (Graph K)} (hNumber : number node.id = ops.length + 2)
    (hPlace : node.body.isSome = true → node.id < Nat.pow 10 Json.digitLimit)
    (hNew : node.id ∉ done.map Node.id) (hS : ∀ π, (node.renew π (node.body.map renewed)).Sound)
    (hB : ∀ body, node.body = some body → ∀ place,
      ofDescriptionAt place body.toDescription = .ok body.renewed)
    (place : String)
    (inputs outputs : List WireType) :
    Yields (Description.addEntry place (labelsOf number done) (entryOf node)
        ((node.body.map toDescription).map (fun body inner => ofDescriptionAt inner body)))
      (made inputs outputs ops []) (labelsOf number (done ++ [node]))
      (made inputs outputs (ops ++ [node.renew number (node.body.map renewed)]) []) := by
  have hAdd : Yields (addNode node.kind ((Param.values node.params).map Value.decimal)
      (node.body.map renewed)) (made inputs outputs ops []) (number node.id)
      (made inputs outputs (ops ++ [node.renew number (node.body.map renewed)]) []) := by
    have hAdded := yields_addOp (g := made inputs outputs ops []) (fun n => hS (fun _ => n))
    rw [← insertNode_made, addNode, toParams_values, hNumber, Node.renew, hNumber]
    exact hAdded
  have hLabels : labelsOf number (done ++ [node]) =
      labelsOf number done ++ [(.number node.id, number node.id)] := by
    simp [labelsOf]
  have hFinish : Yields (do
        let n ← Description.blame (Fault.nodeEntry place (.whole node.id)) (do
          let params ← Edit.ofExcept (Description.entryParams (entryOf node))
          addNode node.kind params (node.body.map renewed))
        return labelsOf number done ++ [(.number node.id, n)])
      (made inputs outputs ops []) (labelsOf number (done ++ [node]))
      (made inputs outputs (ops ++ [node.renew number (node.body.map renewed)]) []) := by
    refine yields_bind_iff.mpr ⟨_, _, ?_, yields_pure_iff.mpr ⟨hLabels, rfl⟩⟩
    refine yields_tryCatch_iff.mpr (.inl (yields_bind_iff.mpr ⟨_, _, ?_, hAdd⟩))
    exact .ofExcept (entryParams_entryOf node)
  unfold Description.addEntry
  refine .bind (.ofExcept (entryLabel_entryOf hNew place)) ?_
  refine .bind (.ofExcept (entryKind_entryOf place _ node)) ?_
  cases hCase : node.body with
  | none =>
    rw [hCase] at hFinish
    exact .bind rfl hFinish
  | some body =>
    rw [hCase] at hFinish
    have hShort : (Value.whole node.id).isLong = false := by
      simpa [Value.isLong] using hPlace (by rw [hCase]; rfl)
    refine .bind (.ofExcept (bind_eq_ok_iff.mpr ⟨_, if_neg (by simp [hShort]), hB body hCase _⟩)) ?_
    exact .bind rfl hFinish

omit [Scalar K] in
theorem Sound.newId_next (hS : g.Sound) {done rest : List (Node (Graph K))}
    {node : Node (Graph K)} (hDone : done ++ node :: rest = g.sortedOps) :
    node.id ∉ done.map Node.id ∧ g.newId node.id = done.length + 2 := by
  have hIds := map_id_sortedOps hS.unique
  rw [← hDone, map_append, map_cons] at hIds
  constructor
  · have hNodup := opIds_nodup g
    rw [← hIds, nodup_append] at hNodup
    exact fun hOld => hNodup.2.2 _ hOld _ mem_cons_self rfl
  · have hAt := congrArg (fun ns => ns[done.length]?) hS.map_newId_opIds
    have hLt : done.length < g.ops.length := by
      rw [← g.sortedOps_perm.length_eq, ← hDone]
      simp
    simpa [← hIds, hLt, Nat.add_comm] using hAt

theorem yields_addEntries (hS : g.Sound) (hReadable : g.Readable)
    (hNodes : ∀ node ∈ g.ops, ∀ π, (node.renew π (node.body.map renewed)).Sound)
    (hBodies : ∀ node ∈ g.ops, ∀ body, node.body = some body → ∀ place,
      ofDescriptionAt place body.toDescription = .ok body.renewed)
    (place : String) : Yields ((g.sortedOps.map entryOf).foldlM
        (fun labels entry => Description.addEntry place labels entry
          ((Description.entryBody? entry).map (fun body inner => ofDescriptionAt inner body)))
        LabelMap.boundary)
      (.empty g.inputs g.outputs) (labelsOf g.newId g.sortedOps)
      (made g.inputs g.outputs
        (g.sortedOps.map (fun node => node.renew g.newId (node.body.map renewed))) []) := by
  rw [foldlM_map]
  simp only [entryBody?_entryOf]
  -- The operations that are done and those that are left are all operations, in order.
  have hRun : ∀ rest done : List (Node (Graph K)), done ++ rest = g.sortedOps →
      Yields (rest.foldlM (fun labels node => Description.addEntry place labels (entryOf node)
          ((node.body.map toDescription).map (fun body inner => ofDescriptionAt inner body)))
          (labelsOf g.newId done))
        (made g.inputs g.outputs
          (done.map (fun node => node.renew g.newId (node.body.map renewed))) [])
        (labelsOf g.newId g.sortedOps)
        (made g.inputs g.outputs
          (g.sortedOps.map (fun node => node.renew g.newId (node.body.map renewed))) []) := by
    intro rest
    induction rest with
    | nil =>
      intro done hDone
      rw [append_nil] at hDone
      rw [hDone]
      exact rfl
    | cons node rest ih =>
      intro done hDone
      have hM : node ∈ g.ops := mem_sortedOps_iff.mp (hDone ▸ by simp)
      rcases hS.newId_next hDone with ⟨hNew, hNumber⟩
      have hStep := yields_addEntry done
        (done.map (fun node => node.renew g.newId (node.body.map renewed)))
        (hNumber.trans (by rw [length_map])) (hReadable.places node hM) hNew (hNodes node hM)
        (hBodies node hM) place g.inputs g.outputs
      rw [foldlM_cons]
      refine .bind hStep ?_
      have hRest := ih (done ++ [node]) (by rw [append_assoc]; exact hDone)
      rw [map_append] at hRest
      exact hRest
  have hStart : made g.inputs g.outputs [] [] = (.empty g.inputs g.outputs : Graph K) := rfl
  have hLabels : labelsOf g.newId ([] : List (Node (Graph K))) = LabelMap.boundary := rfl
  have hAll := hRun g.sortedOps [] rfl
  rw [map_nil, hStart, hLabels] at hAll
  exact hAll

---- Reading Wires ----

variable {K : Type} {g : Graph K}

section

variable {side : Side} {p : Pin} {t : WireType} (hReadable : p.Readable)
  (hType : (g.pinTypes p.node side)[p.index]? = some t)

include hReadable hType

theorem checkPin_eq_ok : g.checkPin ⟨side, .whole p.node, p.slot.toValue⟩ side = .ok p.node := by
  have hN : g.hasNode p.node = true := by
    rw [hasNode_iff]
    refine mem_nodeIds_of_signature (fun hSig => ?_)
    cases side <;> simp [pinTypes, hSig] at hType
  have hNamed : g.named? (.whole p.node) = some p.node := by
    simp [named?, Value.natural?, Value.integer?, hN]
  have hLt : p.index < (g.pinTypes p.node side).length := lt_of_getElem? hType
  have hWithin : p.slot.toValue.within? (g.pinTypes p.node side).length = some true := by
    have hSlot := hReadable.slot
    unfold Pin.index at hLt
    cases hCase : p.slot with
    | number n => simpa [hCase, Slot.toValue, Value.within?, Slot.toNat] using hLt
    | truth b => simpa [hCase, Slot.toValue, Value.within?, Slot.toNat] using hLt
    | _ => simp [hCase, Slot.toValue, Value.position?] at hSlot
  simp [checkPin, hNamed, hWithin, Value.isScalar]

theorem typedPin_eq_ok : g.typedPin p.node ⟨side, .whole p.node, p.slot.toValue⟩ =
      .ok (⟨.number p.node, p.slot⟩, t) := by
  have hOwner : Slot.spelled p.node (.whole p.node) = .number p.node := rfl
  simp [typedPin, hReadable.slot, hType, hReadable.spelled, hOwner]

end

variable [Scalar K]

theorem insertWire_made (inputs outputs : List WireType) (ops : List (Node (Graph K)))
    (wires : List Wire) (w : Wire) :
    (made inputs outputs ops wires).insertWire w = made inputs outputs ops (wires ++ [w]) := by
  simp only [made, insertWire, againstRanks, rankOf?, Graph.empty, Bool.false_eq_true, if_false,
    WireIndex.ofWires, foldl_append, foldl_cons, foldl_nil, length_append, length_singleton]
  congr 1

theorem yields_addWire {number : Nat → Nat} {ops : List (Node (Graph K))} {w : Wire} {t : WireType}
    (hInput : number inputId = inputId) (hOutp : number outputId = outputId)
    (hReadable : w.src.Readable ∧ w.dst.Readable)
    (hSrc : isOpId w.src.node = true → w.src.node ∈ ops.map Node.id)
    (hDst : isOpId w.dst.node = true → w.dst.node ∈ ops.map Node.id)
    (hOut : g.outType? (w.renumber number).src.place = some t)
    (hIn : g.inType? (w.renumber number).dst.place = some t)
    (hFree : ∀ v ∈ g.wires, v.dst.place ≠ (w.renumber number).dst.place)
    (hLin : t ≠ .bool → ∀ v ∈ g.wires, v.src.place ≠ (w.renumber number).src.place)
    (place : String) : Yields (Description.addWire place (labelsOf number ops) (exportWire w)) g ()
      (g.insertWire (w.renumber number)) := by
  have hSrc' := hReadable.1.renumber number
  have hDst' := hReadable.2.renumber number
  refine yields_tryCatch_iff.mpr (.inl ?_)
  refine .bind (.ofExcept rfl) ?_
  refine .bind (.ofExcept (resolve_exportLabel hReadable.1 hInput hOutp hSrc)) ?_
  refine .bind (.ofExcept (resolve_exportLabel hReadable.2 hInput hOutp hDst)) ?_
  refine yields_bind_iff.mpr ⟨w.renumber number, _, ?_, rfl⟩
  unfold connect
  refine .bind rfl ?_
  refine .bind (.ofExcept (checkPin_eq_ok hSrc' hOut)) ?_
  refine .bind (.ofExcept (checkPin_eq_ok hDst' hIn)) ?_
  refine .bind (.ofExcept (typedPin_eq_ok hSrc' hOut)) ?_
  refine .bind (.ofExcept (typedPin_eq_ok hDst' hIn)) ?_
  exact yields_link (w := w.renumber number) hFree hLin _ _

theorem yields_addWires {inner : Node (Graph K) → Option (Graph K)} (hS : g.Sound)
    (hNew : (g.renewWith inner).Sound) (hReadable : g.Readable) (place : String) :
    Yields ((g.sortedWires.map exportWire).forM
        (Description.addWire place (labelsOf g.newId g.sortedOps)))
      (made g.inputs g.outputs (g.sortedOps.map (fun node => node.renew g.newId (inner node))) [])
      () (g.renewWith inner) := by
  have hOps : ∀ {n}, n ∈ g.nodeIds → isOpId n = true → n ∈ g.sortedOps.map Node.id := by
    intro n hM hOp
    rw [map_id_sortedOps hS.unique]
    exact (hS.mem_opIds_iff_isOpId hM).mpr hOp
  have hRun : ∀ rest done : List Wire, done ++ rest = g.sortedWires →
      Yields ((rest.map exportWire).forM (Description.addWire place (labelsOf g.newId g.sortedOps)))
        (made g.inputs g.outputs (g.sortedOps.map (fun node => node.renew g.newId (inner node)))
          (done.map (Wire.renumber g.newId))) () (g.renewWith inner) := by
    intro rest
    induction rest with
    | nil =>
      intro done hDone
      rw [append_nil] at hDone
      rw [hDone]
      exact yields_forM_nil_iff.mpr rfl
    | cons w rest ih =>
      intro done hDone
      have hM : w ∈ g.wires := mem_mergeSort.mp (show w ∈ g.sortedWires from hDone ▸ by simp)
      rcases hS.edge_mem ⟨w, hM, rfl, rfl⟩ with ⟨hSrc, hDst⟩
      have hAll : ({ made g.inputs g.outputs
            (g.sortedOps.map (fun node => node.renew g.newId (inner node)))
            (done.map (Wire.renumber g.newId)) with
          wires := done.map (Wire.renumber g.newId) ++
            w.renumber g.newId :: rest.map (Wire.renumber g.newId) } : Graph K).Sound := by
        refine hNew.of_alike (.of_parts rfl rfl rfl ?_ rfl)
        change _ = g.sortedWires.map (Wire.renumber g.newId)
        rw [← hDone, map_append, map_cons]
      rcases hAll.pins_free with ⟨t, hOut, hIn, hFree, hLin⟩
      have hStep := yields_addWire (newId_inputId g) (newId_outputId g) (hReadable.pins w hM)
        (hOps hSrc) (hOps hDst) hOut hIn hFree hLin place
      rw [insertWire_made] at hStep
      have hRest := ih (done ++ [w]) (by rw [append_assoc]; exact hDone)
      rw [map_append] at hRest
      exact yields_forM_cons_iff.mpr ⟨_, hStep, hRest⟩
  exact hRun g.sortedWires [] rfl

---- Reading Back ----

variable {K : Type} {g : Graph K}

theorem Intact.numbered (hI : g.Intact) :
    Everywhere (fun h => h.opIds.map h.newId = List.range' 2 h.ops.length) g := by
  induction hI with
  | intro g hS _ ih => exact .intro hS.map_newId_opIds ih

theorem Intact.readable_renewed (hI : g.Intact) (hReadable : Everywhere Readable g)
    (hPins : Everywhere (fun h => ∀ w ∈ h.wires, w.src.Readable ∧ w.dst.Readable) g.renewed) :
    Everywhere Readable g.renewed := by
  induction hI with
  | intro g hS _ ih =>
    rw [renewed_eq hS.unique] at hPins ⊢
    refine .intro ⟨hPins.here, fun node hN hSome => ?_⟩ (fun node hN body hB => ?_)
    all_goals rcases mem_ops_renewWith_iff.mp hN with ⟨other, hOther, rfl⟩
    · have hLess := hReadable.here.places other hOther (by simpa [Node.renew] using hSome)
      exact Nat.lt_of_le_of_lt (hS.newId_le (mem_opIds_iff.mpr ⟨other, hOther, rfl⟩)) hLess
    · rcases Option.map_eq_some_iff.mp hB with ⟨inner, hInner, rfl⟩
      exact ih other hOther inner hInner (hReadable.body hOther hInner) (hPins.body hN hB)

variable [Scalar K]

theorem Intact.ofDescriptionAt_toDescription (hI : g.Intact) (hF : g.WellFormed)
    (hReadable : Everywhere Readable g) (place : String) :
    ofDescriptionAt place g.toDescription = .ok g.renewed := by
  induction hI generalizing place with
  | intro g hS hBodies ih =>
    have hIn := (Intact.intro g hS hBodies).map_signature_renewed
    cases hF with
    | intro _ hCom hAcy hOwned hNested =>
      have hNodes := fun node hN => sound_renew (hS.nodes node hN) (hOwned node hN) (hIn node hN)
      have hRead := fun node hN body hB => ih node hN body hB
        (hNested node hN body hB) (hReadable.body hN hB)
      have hFill : Yields (fill place (g.sortedOps.map entryOf) (g.sortedWires.map exportWire))
          (.empty g.inputs g.outputs) () (g.renewWith (fun node => node.body.map Graph.renewed)) :=
        .bind (yields_addEntries hS hReadable.here hNodes hRead place)
          (yields_addWires hS (sound_renewWith hS hOwned hIn) hReadable.here place)
      rw [← renewed_eq hS.unique] at hFill
      rw [toDescription_level hS.unique, ofDescriptionAt_eq]
      refine bind_eq_ok_iff.mpr ⟨(), rfl, ?_⟩
      refine bind_eq_ok_iff.mpr ⟨_, Description.wireTypes_exportTypes place g.inputs, ?_⟩
      refine bind_eq_ok_iff.mpr ⟨_, Description.wireTypes_exportTypes place g.outputs, ?_⟩
      refine bind_eq_ok_iff.mpr ⟨_, rfl, ?_⟩
      refine bind_eq_ok_iff.mpr ⟨_, rfl, ?_⟩
      exact Edit.build_eq_ok_iff.mpr hFill

theorem Intact.ofDescription_eq (hI : g.Intact) (hF : g.WellFormed)
    (hReadable : Everywhere Readable g) : ofDescription g.toDescription = .ok g.renewed := by
  rcases hI.renewed hF with ⟨hI', hF'⟩
  rw [ofDescription, ofDescriptionUnchecked,
    hI.ofDescriptionAt_toDescription hF hReadable "graph"]
  refine bind_eq_ok_iff.mpr ⟨g.renewed, rfl, ?_⟩
  rw [hI'.validate_ok_iff.mpr hF']
  rfl

/-
  The description of a graph that passes the check is read as
  a graph that has this description with the operations of
  every level numbered from two on in the order of their ids,
  and the same fingerprint.  Reading the new description
  changes nothing.
-/
theorem ofDescription_toDescription
    (hIntact : g.Intact)
    (hValid : g.validate = .ok ())
    (hReadable : Everywhere Readable g) :
    Everywhere (fun h => h.opIds.map h.newId = List.range' 2 h.ops.length) g ∧
      ∃ g' : Graph K, ofDescription g.toDescription = .ok g' ∧
        g'.toDescription = g.describe newId ∧
        g'.fingerprint = g.fingerprint ∧
        ofDescription g'.toDescription = .ok g' := by
  have hFormed := hIntact.validate_ok_iff.mp hValid
  rcases hIntact.renewed hFormed with ⟨hIntact', hFormed'⟩
  refine ⟨hIntact.numbered, g.renewed, hIntact.ofDescription_eq hFormed hReadable,
    hIntact.toDescription_renewed, hIntact.fingerprint_renewed hFormed, ?_⟩
  have hPins := pins_of_ofDescriptionAt
    (hIntact.ofDescriptionAt_toDescription hFormed hReadable "graph")
  have hAgain := hIntact'.ofDescription_eq hFormed' (hIntact.readable_renewed hReadable hPins)
  rwa [hIntact.renewed_renewed] at hAgain

/-
  Adds an operation on a qubit after another one that is taken
  out again, so that the first id is not in use.
-/
def passThrough (kind : Kind) (body : Option (Graph ℚ)) : Edit ℚ Unit := do
  let _ ← addNode .z [] none
  let n ← addNode kind [] body
  let _ ← removeNode (.whole 2) false
  let _ ← connect ⟨.output, .whole inputId, .truth false⟩ ⟨.input, .whole n, .whole 0⟩
  let _ ← connect ⟨.output, .whole n, .whole 0⟩ ⟨.input, .whole outputId, .whole 0⟩

def sparse (kind : Kind) (body : Option (Graph ℚ)) : Graph ℚ :=
  (outcome (passThrough kind body) (.empty [.qubit] [.qubit])).2

theorem reachable_sparse (kind : Kind) {body : Option (Graph ℚ)}
    (hB : ∀ b, body = some b → b.Reachable) : (sparse kind body).Reachable := by
  have hKeeps : Keeps Reachable (passThrough kind body) := by
    refine .bind (keeps_reachable_addNode .z _ (fun _ hNone => by cases hNone)) (fun _ => ?_)
    refine .bind (keeps_reachable_addNode kind _ hB) (fun n => ?_)
    refine .bind (fun _ hReach => .removeNode hReach _ _) (fun _ => ?_)
    refine .bind (fun _ hReach => .connect hReach _ _) (fun _ => ?_)
    exact .bind (fun _ hReach => .connect hReach _ _) (fun _ => .of_pure _)
  exact hKeeps _ (.empty _ _)

def invertedInside : Graph ℚ :=
  sparse .region (some (sparse .x none))

/- The operations of both levels have the id 3 and get the number 2. -/
theorem ofDescription_toDescription_sparse :
    invertedInside.Intact ∧ invertedInside.validate = .ok () ∧
      Everywhere Readable invertedInside ∧ invertedInside.opIds = [3] ∧
      ∃ g' : Graph ℚ, ofDescription invertedInside.toDescription = .ok g' ∧
        g'.toDescription = invertedInside.describe newId ∧
        g'.fingerprint = invertedInside.fingerprint ∧
        ofDescription g'.toDescription = .ok g' := by
  have hReach : invertedInside.Reachable := by
    refine reachable_sparse _ ?_
    rintro _ ⟨⟩
    exact reachable_sparse _ (fun _ hNone => by cases hNone)
  rcases exists_of_isOk (e := invertedInside.validate) (by decide +kernel) with ⟨⟨⟩, hValid⟩
  have hReadable : Everywhere Readable invertedInside := by
    have hOps : invertedInside.ops = [⟨3, .region, [], some (sparse .x none), none⟩] := by rfl
    have hInner : (sparse .x none).ops = [⟨3, .x, [], none, none⟩] := by rfl
    refine .intro (by decide +kernel) (fun node hNode body hBody => ?_)
    rw [hOps, mem_singleton] at hNode
    obtain rfl := eq_of_some (congrArg Node.body hNode) hBody
    refine .intro (by decide +kernel) (fun node hNode body hBody => ?_)
    rw [hInner, mem_singleton] at hNode
    cases (congrArg Node.body hNode).symm.trans hBody
  exact ⟨hReach.intact, hValid, hReadable, by decide +kernel,
    (ofDescription_toDescription hReach.intact hValid hReadable).2⟩

end Graph

end CircuitGraph
