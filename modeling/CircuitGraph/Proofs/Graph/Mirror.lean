import CircuitGraph.Graph.Copy
import CircuitGraph.Proofs.Graph.Alike

/-
  Levels that differ in their nested graphs only.

  A level mirrors another one if it has the same operations,
  perhaps listed in another order, and if nested graphs are
  related as told.
-/

---- Mirrors ----

namespace CircuitGraph

open List

variable {K : Type}

/- Whether two operations are the same up to related nested graphs. -/
structure Node.Mirrors (related : Graph K → Graph K → Prop)
    (node node' : Node (Graph K)) : Prop where
  id : node'.id = node.id
  kind : node'.kind = node.kind
  params : node'.params = node.params
  enclosing : node'.enclosing = node.enclosing
  body : Option.Rel related node.body node'.body

/- Whether two levels are the same up to related nested graphs. -/
structure Graph.Mirrors (related : Graph K → Graph K → Prop) (g g' : Graph K) : Prop where
  inputs : g'.inputs = g.inputs
  outputs : g'.outputs = g.outputs
  wires : g'.wires = g.wires
  next : g.nextId ≤ g'.nextId
  ops : ∃ image : Node (Graph K) → Node (Graph K),
    (∀ node ∈ g.ops, node.Mirrors related (image node)) ∧ (g.ops.map image).Perm g'.ops

namespace Node.Mirrors

variable {related : Graph K → Graph K → Prop} {node node' : Node (Graph K)}

section

variable (hMir : node.Mirrors related node')
  (hRel : ∀ b b', related b b' → b'.signature = b.signature)

include hMir hRel

theorem boundary? : node'.boundary? = node.boundary? := by
  have hB := hMir.body
  unfold Node.boundary?
  cases hL : node.body <;> cases hR : node'.body <;> rw [hL, hR] at hB <;> cases hB
  · exact hMir.enclosing
  · rename_i hB
    exact congrArg some (hRel _ _ hB)

theorem signature : node'.signature = node.signature := by
  rw [Node.signature, Node.signature, hMir.kind, hMir.boundary? hRel]

theorem sound (hS : node.Sound) : node'.Sound where
  inner := hMir.kind ▸ hS.inner
  params := by rw [hMir.kind, hMir.params, hS.params]
  body := by
    rw [hMir.kind, hS.body, Node.hasBody, Node.hasBody, hMir.boundary? hRel]
  owned := by
    rcases hS.owned with hNone | hNone
    · left
      have hB := hMir.body
      rw [hNone] at hB
      cases hR : node'.body with
      | none => rfl
      | some body =>
        rw [hR] at hB
        cases hB
    · exact .inr (hMir.enclosing.trans hNone)

end

end Node.Mirrors

namespace Graph

namespace Mirrors

variable {related : Graph K → Graph K → Prop} {g g' : Graph K}

section

variable (hMir : g.Mirrors related g')

include hMir

theorem ids_perm : (g'.ops.map Node.id).Perm (g.ops.map Node.id) := by
  rcases hMir.ops with ⟨image, hImage, hPerm⟩
  have hIds : (g.ops.map image).map Node.id = g.ops.map Node.id := by
    rw [map_map]
    exact map_congr_left (fun node hN => (hImage node hN).id)
  exact hIds ▸ (hPerm.map Node.id).symm

theorem exists_image {node : Node (Graph K)} (hN : node ∈ g.ops) :
    ∃ node' ∈ g'.ops, node.Mirrors related node' := by
  rcases hMir.ops with ⟨image, hImage, hPerm⟩
  exact ⟨image node, hPerm.subset (mem_map_of_mem hN), hImage node hN⟩

theorem exists_original {node' : Node (Graph K)} (hN : node' ∈ g'.ops) :
    ∃ node ∈ g.ops, node.Mirrors related node' := by
  rcases hMir.ops with ⟨image, hImage, hPerm⟩
  rcases mem_map.mp (hPerm.symm.subset hN) with ⟨node, hOld, rfl⟩
  exact ⟨node, hOld, hImage node hOld⟩

theorem exists_original_body {node' : Node (Graph K)} (hN : node' ∈ g'.ops) {b' : Graph K}
    (hB' : node'.body = some b') : ∃ node ∈ g.ops, ∃ b, node.body = some b ∧ related b b' := by
  rcases hMir.exists_original hN with ⟨node, hOld, hSame⟩
  have hB := hSame.body
  rw [hB'] at hB
  generalize hOldBody : node.body = old at hB
  cases hB with
  | some hBoth => exact ⟨node, hOld, _, hOldBody, hBoth⟩

theorem signature : g'.signature = g.signature := by
  rw [Graph.signature, Graph.signature, hMir.inputs, hMir.outputs]

theorem opIds (n : Nat) : n ∈ g'.opIds ↔ n ∈ g.opIds := by
  rw [Graph.opIds, Graph.opIds, mem_sortIds, mem_sortIds]
  exact hMir.ids_perm.mem_iff

theorem source? (n i : Nat) : g'.source? n i = g.source? n i := by
  rw [Graph.source?, Graph.source?, Graph.wireInto?, Graph.wireInto?, hMir.wires]

theorem wired_iff {src dst : Nat × Nat} : g'.Wired src dst ↔ g.Wired src dst := by
  rw [Wired, Wired, hMir.wires]

theorem acyclic (hAcy : g.Acyclic) : g'.Acyclic := by
  have hEdge : g'.Edge = g.Edge := by
    funext u v
    rw [Edge, Edge, hMir.wires]
  rwa [Acyclic, hEdge]

end

variable (hRel : ∀ b b', related b b' → b'.signature = b.signature)

include hRel

section

variable (hMir : g.Mirrors related g')

include hMir

section

variable (hUniq : (g.ops.map Node.id).Nodup)

include hUniq

theorem signatureOf (n : Nat) : g'.signatureOf n = g.signatureOf n := by
  have hUniq' := hMir.ids_perm.nodup_iff.mpr hUniq
  unfold Graph.signatureOf Graph.signatureOf?
  rw [hMir.inputs, hMir.outputs]
  split
  · rfl
  · split
    · rfl
    · cases hOp : g.op? n with
      | none =>
        have hNone : g'.op? n = none := by
          rw [← Option.not_isSome_iff_eq_none, isSome_op?_iff, hMir.opIds, ← isSome_op?_iff, hOp]
          simp
        rw [hNone]
      | some node =>
        rcases op?_eq_some hOp with ⟨hN, hId⟩
        rcases hMir.exists_image hN with ⟨node', hN', hSame⟩
        have hSome : g'.op? n = some node' :=
          (find?_key_eq_some_iff hUniq').mpr ⟨hN', hSame.id.trans hId⟩
        rw [hSome, Option.map_some, Option.map_some, hSame.signature hRel]

theorem outType? (place : Nat × Nat) : g'.outType? place = g.outType? place := by
  rw [Graph.outType?, Graph.outType?, hMir.signatureOf hRel hUniq]

theorem inType? (place : Nat × Nat) : g'.inType? place = g.inType? place := by
  rw [Graph.inType?, Graph.inType?, hMir.signatureOf hRel hUniq]

theorem complete (hCom : g.Complete) : g'.Complete where
  fed := by
    intro place t hType
    rw [hMir.inType? hRel hUniq] at hType
    rcases hCom.fed place t hType with ⟨src, hW⟩
    exact ⟨src, hMir.wired_iff.mpr hW⟩
  used := by
    intro place t hType hLin
    rw [hMir.outType? hRel hUniq] at hType
    rcases hCom.used place t hType hLin with ⟨dst, hW⟩
    exact ⟨dst, hMir.wired_iff.mpr hW⟩

theorem wellFormed (hF : g.WellFormed)
    (hBodies : ∀ node ∈ g.ops, ∀ b b', node.body = some b → related b b' → b'.WellFormed) :
    g'.WellFormed := by
  refine .intro g' (hMir.complete hRel hUniq hF.complete) (hMir.acyclic hF.acyclic) ?_ ?_
  · intro node' hN
    rcases hMir.exists_original hN with ⟨node, hOld, hSame⟩
    exact hSame.enclosing.trans (hF.owned hOld)
  · intro node' hN b' hB'
    rcases hMir.exists_original_body hN hB' with ⟨node, hOld, b, hB, hBoth⟩
    exact hBodies node hOld b b' hB hBoth

end

theorem sound (hS : g.Sound) : g'.Sound where
  nodes := by
    intro node' hN
    rcases hMir.exists_original hN with ⟨node, hOld, hSame⟩
    exact hSame.sound hRel (hS.nodes node hOld)
  unique := hMir.ids_perm.nodup_iff.mpr hS.unique
  operation := by
    intro node' hN
    rcases hMir.exists_original hN with ⟨node, hOld, hSame⟩
    exact hSame.id ▸ hS.operation node hOld
  issued := by
    intro node' hN
    rcases hMir.exists_original hN with ⟨node, hOld, hSame⟩
    exact hSame.id ▸ Nat.lt_of_lt_of_le (hS.issued node hOld) hMir.next
  started := Nat.lt_of_lt_of_le hS.started hMir.next
  typed := by
    intro w hM
    rw [hMir.wires] at hM
    rw [hMir.outType? hRel hS.unique, hMir.inType? hRel hS.unique]
    exact hS.typed w hM
  single := hMir.wires ▸ hS.single
  linear := by
    intro v hL w hR hSrc hType
    rw [hMir.wires] at hL hR
    rw [hMir.outType? hRel hS.unique] at hType
    exact hS.linear v hL w hR hSrc hType

theorem intact (hI : g.Intact)
    (hBodies : ∀ node ∈ g.ops, ∀ b b', node.body = some b → related b b' → b'.Intact) :
    g'.Intact := by
  refine .intro g' (hMir.sound hRel hI.sound) ?_
  intro node' hN b' hB'
  rcases hMir.exists_original_body hN hB' with ⟨node, hOld, b, hB, hBoth⟩
  exact hBodies node hOld b b' hB hBoth

end

end Mirrors

end Graph

---- Operations and Wires in Order ----

namespace Wire

theorem before_iff {v w : Wire} :
    v.before w = true ↔ v.src.node < w.src.node ∨ v.src.node = w.src.node ∧
      (v.src.index < w.src.index ∨ v.src.index = w.src.index ∧
        (v.dst.node < w.dst.node ∨ v.dst.node = w.dst.node ∧ v.dst.index ≤ w.dst.index)) := by
  simp only [before, Pin.before, Pin.same, Pin.place, beq_iff_eq, Prod.mk.injEq]
  split <;> simp only [Bool.or_eq_true, decide_eq_true_iff, Bool.and_eq_true, beq_iff_eq] <;> omega

end Wire

namespace Graph

variable {g g' : Graph K}

theorem sortedOps_perm (g : Graph K) : g.sortedOps.Perm g.ops :=
  mergeSort_perm _ _

theorem sortedOps_pairwise (g : Graph K) : g.sortedOps.Pairwise (fun a b => a.id ≤ b.id) :=
  pairwise_mergeSort_of_key (fun _ _ => decide_eq_true_iff) _

theorem mem_sortedOps_iff {node : Node (Graph K)} : node ∈ g.sortedOps ↔ node ∈ g.ops :=
  mem_mergeSort

theorem map_id_sortedOps (hUniq : (g.ops.map Node.id).Nodup) :
    g.sortedOps.map Node.id = g.opIds := by
  have hPerm : (g.sortedOps.map Node.id).Perm g.opIds := by
    refine (g.sortedOps_perm.map Node.id).trans ?_
    exact (perm_ext_iff_of_nodup hUniq (sortIds_nodup _)).mpr (fun n => mem_sortIds.symm)
  refine hPerm.eq_of_pairwise (fun a b _ _ hAB hBA => Nat.le_antisymm hAB hBA) ?_ ?_
  · rw [pairwise_map]
    exact g.sortedOps_pairwise
  · exact (sortIds_pairwise _).imp Nat.le_of_lt

theorem sortedWires_pairwise (g : Graph K) :
    g.sortedWires.Pairwise (fun v w => v.before w = true) := by
  refine pairwise_mergeSort (fun u v w hL hR => ?_) (fun v w => ?_) _
  · rw [Wire.before_iff] at hL hR ⊢
    omega
  · rw [Bool.or_eq_true, Wire.before_iff, Wire.before_iff]
    omega

theorem sortedOps_map_eq {f f' : Node (Graph K) → Node (Graph K)}
    (hId : ∀ node, (f node).id = node.id) (hId' : ∀ node, (f' node).id = node.id)
    (hUniq : (g.ops.map Node.id).Nodup) (hPerm : (g.ops.map f).Perm (g'.ops.map f')) :
    g.sortedOps.map f = g'.sortedOps.map f' := by
  have hSort : ∀ (h : Graph K) (e : Node (Graph K) → Node (Graph K)),
      (∀ node, (e node).id = node.id) →
      (h.sortedOps.map e).Pairwise (fun a b => a.id ≤ b.id) := by
    intro h e hSame
    rw [pairwise_map]
    simpa only [hSame] using h.sortedOps_pairwise
  have hAll : (g.sortedOps.map f).Perm (g'.sortedOps.map f') :=
    (g.sortedOps_perm.map f).trans (hPerm.trans (g'.sortedOps_perm.map f').symm)
  have hKeys : ((g.sortedOps.map f).map Node.id).Nodup := by
    rw [map_map]
    have hSame : Node.id ∘ f = Node.id := funext hId
    rw [hSame]
    exact (g.sortedOps_perm.map Node.id).nodup_iff.mpr hUniq
  refine hAll.eq_of_pairwise ?_ (hSort g f hId) (hSort g' f' hId')
  intro a b hL hR hAB hBA
  exact eq_of_key_eq hKeys hL (hAll.symm.subset hR) (Nat.le_antisymm hAB hBA)

theorem sortedOps_of_map {f : Node (Graph K) → Node (Graph K)} (hId : ∀ node, (f node).id = node.id)
    (hOps : g'.ops = g.ops.map f) : g'.sortedOps = g.sortedOps.map f := by
  unfold sortedOps
  rw [hOps]
  symm
  apply map_mergeSort
  intro a _ b _
  rw [hId, hId]

---- Copies ----

theorem optionRel_map {α : Type} {r : α → α → Prop} {f : α → α} {a : Option α}
    (hEach : ∀ x, a = some x → r x (f x)) : Option.Rel r a (a.map f) := by
  cases a with
  | none => exact .none
  | some x => exact .some (hEach x rfl)

theorem Sound.copy_eq (hS : g.Sound) : g.copy = { g with
        ops := g.sortedOps.map (fun node => { node with body := node.body.map Graph.copy })
        index := g.index.copy
        version := g.ops.length + 2 } := by
  unfold Graph.copy
  rw [fold_eq]
  congr 1
  refine map_congr_left (fun node hN => ?_)
  exact congrArg (fun body => { node with body }) (hS.valueOf?_bodies _ (mem_sortedOps_iff.mp hN))

theorem Sound.mirrors_copy (hS : g.Sound) : g.Mirrors (fun b b' => b' = b.copy) g.copy := by
  rw [hS.copy_eq]
  refine ⟨rfl, rfl, rfl, Nat.le_refl _, fun node => { node with body := node.body.map Graph.copy },
    fun node _ => ⟨rfl, rfl, rfl, rfl, optionRel_map (fun b _ => rfl)⟩, ?_⟩
  exact ((mergeSort_perm _ _).symm).map _

theorem signature_copy (g : Graph K) : g.copy.signature = g.signature := by
  unfold Graph.copy
  rw [fold_eq]
  rfl

theorem related_copy_signature (b b' : Graph K) (hCopy : b' = b.copy) :
    b'.signature = b.signature := by
  rw [hCopy, signature_copy]

theorem Intact.copy (hI : g.Intact) : g.copy.Intact := by
  induction g using nested_induction with
  | step g ih =>
    refine hI.sound.mirrors_copy.intact related_copy_signature hI ?_
    rintro node hN b b' hB rfl
    exact ih node hN b hB (hI.body hN hB)

theorem Intact.wellFormed_copy (hI : g.Intact) (hF : g.WellFormed) : g.copy.WellFormed := by
  induction g using nested_induction with
  | step g ih =>
    refine hI.sound.mirrors_copy.wellFormed related_copy_signature hI.sound.unique hF ?_
    rintro node hN b b' hB rfl
    exact ih node hN b hB (hI.body hN hB) (hF.body hN hB)

theorem mirrors_takeOver {other : Graph K} (hSig : other.signature = g.signature) :
    other.Mirrors (fun b b' => b' = b) (g.takeOver other) := by
  injection hSig with hInputs hOuts
  refine ⟨hInputs.symm, hOuts.symm, rfl, Nat.le_max_right _ _, fun node => node, fun node _ => ?_, ?_⟩
  · refine ⟨rfl, rfl, rfl, rfl, ?_⟩
    cases node.body with
    | none => exact .none
    | some b => exact .some rfl
  · rw [map_id']
    exact List.Perm.refl _

theorem related_eq_signature (b b' : Graph K) (hEq : b' = b) : b'.signature = b.signature := by
  rw [hEq]

---- Nested Graphs by Path ----

def withBodyAt (n : Nat) (path : List Nat) (body : Graph K) (node : Node (Graph K)) :
    Node (Graph K) :=
  if node.id = n then
    { node with body := node.body.map (fun inner => inner.replaceAt path body) }
  else node

theorem mirrors_replaceAt (g : Graph K) (n : Nat) (path : List Nat) (body : Graph K) : g.Mirrors
      (fun b b' => b' = b ∨
        (∃ node ∈ g.ops, node.id = n ∧ node.body = some b) ∧ b' = b.replaceAt path body)
      (g.replaceAt (n :: path) body) := by
  refine ⟨rfl, rfl, rfl, Nat.le_refl _, _, fun node hN => ?_, List.Perm.refl _⟩
  split
  · rename_i hId
    refine ⟨rfl, rfl, rfl, rfl, optionRel_map (fun b hB => .inr ⟨?_, rfl⟩)⟩
    exact ⟨node, hN, hId, hB⟩
  · refine ⟨rfl, rfl, rfl, rfl, ?_⟩
    cases node.body with
    | none => exact .none
    | some b => exact .some (.inl rfl)

theorem bodyAt?_cons_iff {n : Nat} {path : List Nat} {body : Graph K} :
    g.bodyAt? (n :: path) = some body ↔ ∃ node inner, g.op? n = some node ∧ node.body = some inner ∧
        inner.bodyAt? path = some body := by
  rw [bodyAt?]
  cases hOp : g.op? n with
  | none => simp
  | some node => cases hB : node.body <;> simp [hB]

variable {body body' : Graph K} {path : List Nat}

theorem signature_replaceAt (hB : g.bodyAt? path = some body) (hSig : body'.signature = body.signature) :
    (g.replaceAt path body').signature = g.signature := by
  cases path with
  | nil =>
    obtain rfl : g = body := by simpa [bodyAt?] using hB
    exact hSig
  | cons n path => rfl

/-
  What a replacement of a nested graph makes of the graphs
  around it, from the inside to the outside.
-/
theorem replaceAt_induction {P : Graph K → Prop} {R : Graph K → Graph K → Prop}
    (hS : ∀ {g}, P g → g.Sound)
    (hIns : ∀ {g}, P g → ∀ {node b}, node ∈ g.ops → node.body = some b → P b)
    (hSelf : ∀ {g}, P g → R g g)
    (hAr : ∀ {g related n path}, P g → g.Mirrors related (g.replaceAt (n :: path) body') →
      (∀ b b', related b b' → b'.signature = b.signature) →
      (∀ node ∈ g.ops, ∀ b b', node.body = some b → related b b' → R b b') →
      R g (g.replaceAt (n :: path) body'))
    (hSig : body'.signature = body.signature) (hB' : R body body')
    (hGraph : P g) (hB : g.bodyAt? path = some body) : R g (g.replaceAt path body') := by
  induction path generalizing g with
  | nil =>
    obtain rfl : g = body := by simpa [bodyAt?] using hB
    exact hB'
  | cons n path ih =>
    rcases bodyAt?_cons_iff.mp hB with ⟨node, inner, hOp, hIn, hRest⟩
    have hOnly : ∀ {b}, (∃ other ∈ g.ops, other.id = n ∧ other.body = some b) → inner = b := by
      rintro b ⟨other, hOther, hId, hThere⟩
      rw [(hS hGraph).op?_iff.mpr ⟨hOther, hId⟩] at hOp
      obtain rfl := Option.some.inj hOp
      exact eq_of_some hIn hThere
    refine hAr hGraph (mirrors_replaceAt g n path body') ?_ ?_
    · rintro b _ (rfl | ⟨hAt, rfl⟩)
      · rfl
      · obtain rfl := hOnly hAt
        exact signature_replaceAt hRest hSig
    · rintro other hOther b _ hThere (rfl | ⟨hAt, rfl⟩)
      · exact hSelf (hIns hGraph hOther hThere)
      · obtain rfl := hOnly hAt
        exact ih (hIns hGraph (op?_eq_some hOp).1 hIn) hRest

theorem Intact.replaceAt (hI : g.Intact) (hB : g.bodyAt? path = some body)
    (hSig : body'.signature = body.signature) (hI' : body'.Intact) :
    (g.replaceAt path body').Intact :=
  replaceAt_induction (R := fun _ g' => g'.Intact) Intact.sound Intact.body (fun hI => hI)
    (fun hI hMir hRel => hMir.intact hRel hI) hSig hI' hI
    hB

theorem Intact.wellFormed_replaceAt (hI : g.Intact) (hF : g.WellFormed)
    (hB : g.bodyAt? path = some body) (hSig : body'.signature = body.signature)
    (hF' : body'.WellFormed) : (g.replaceAt path body').WellFormed :=
  replaceAt_induction (P := fun g => g.Intact ∧ g.WellFormed) (R := fun _ g' => g'.WellFormed)
    (fun hBoth => hBoth.1.sound)
    (fun hBoth => fun hN hB => ⟨hBoth.1.body hN hB, hBoth.2.body hN hB⟩) And.right
    (fun hBoth hMir hRel => hMir.wellFormed hRel hBoth.1.sound.unique hBoth.2)
    hSig hF' ⟨hI, hF⟩ hB

/- What holds of a graph holds of all graphs nested in it, if nesting one level deeper keeps it. -/
theorem of_bodyAt? {P : Graph K → Prop}
    (hIns : ∀ {g}, P g → ∀ {node b}, node ∈ g.ops → node.body = some b → P b)
    (hGraph : P g) (hB : g.bodyAt? path = some body) : P body := by
  induction path generalizing g with
  | nil =>
    obtain rfl : g = body := by simpa [Graph.bodyAt?] using hB
    exact hGraph
  | cons n path ih =>
    rcases bodyAt?_cons_iff.mp hB with ⟨node, inner, hOp, hIn, hRest⟩
    exact ih (hIns hGraph (op?_eq_some hOp).1 hIn) hRest

theorem Intact.bodyAt? (hI : g.Intact) (hB : g.bodyAt? path = some body) : body.Intact :=
  of_bodyAt? Intact.body hI hB

theorem WellFormed.bodyAt? (hF : g.WellFormed) (hB : g.bodyAt? path = some body) :
    body.WellFormed :=
  of_bodyAt? WellFormed.body hF hB

end Graph

end CircuitGraph
