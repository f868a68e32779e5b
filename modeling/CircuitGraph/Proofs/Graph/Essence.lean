import CircuitGraph.Description
import CircuitGraph.Proofs.Graph.Mirror

/-
  What graphs are, apart from the order of their operations
  and from what they remember.

  The essence of a graph lists its operations in ascending
  order, at every level, and has neither ranks nor a version.
-/

---- Essences ----

namespace CircuitGraph

open List

namespace Graph

variable {K : Type} {g g' : Graph K}

/- The graph with its operations in ascending order and nothing remembered, at every level. -/
def essence (g : Graph K) : Graph K :=
  g.fold (fun g bodies =>
    { g with
      ops := g.sortedOps.map (fun node => { node with body := valueOf? bodies node.id })
      index := .empty
      version := 0
      ranks := none
      unranked := []
      rankedAs := [] })

def essenceOf (node : Node (Graph K)) : Node (Graph K) :=
  { node with body := node.body.map essence }

theorem nextId_essence (g : Graph K) : g.essence.nextId = g.nextId := by
  rw [essence, fold_eq]

theorem signature_essence (g : Graph K) : g.essence.signature = g.signature := by
  rw [essence, fold_eq]
  rfl

section

variable (hUniq : (g.ops.map Node.id).Nodup)

include hUniq

theorem essence_eq : g.essence = { g with
        ops := g.sortedOps.map essenceOf
        index := .empty
        version := 0
        ranks := none
        unranked := []
        rankedAs := [] } := by
  unfold essence
  rw [fold_eq]
  congr 1
  apply map_congr_left
  intro node hN
  have hOld : node ∈ g.ops := g.sortedOps_perm.subset hN
  rw [essenceOf, ← valueOf?_map_bodies hUniq essence hOld]
  rfl

theorem essence_eq_of_perm (hInputs : g.inputs = g'.inputs) (hOuts : g.outputs = g'.outputs)
    (hWires : g.wires = g'.wires) (hNext : g.nextId = g'.nextId)
    (hPerm : (g.ops.map essenceOf).Perm (g'.ops.map essenceOf)) : g.essence = g'.essence := by
  have hIds : ∀ h : Graph K, (h.ops.map essenceOf).map Node.id = h.ops.map Node.id := by
    intro h
    rw [map_map]
    rfl
  have hUniq' : (g'.ops.map Node.id).Nodup := by
    rw [← hIds, ← (hPerm.map Node.id).nodup_iff, hIds]
    exact hUniq
  rw [essence_eq hUniq, essence_eq hUniq', hInputs, hOuts, hWires, hNext]
  congr 1
  exact sortedOps_map_eq (fun _ => rfl) (fun _ => rfl) hUniq hPerm

theorem essence_inj (hUniq' : (g'.ops.map Node.id).Nodup) (hEss : g.essence = g'.essence) :
    g.inputs = g'.inputs ∧ g.outputs = g'.outputs ∧ g.wires = g'.wires ∧ g.nextId = g'.nextId ∧
      (g.ops.map essenceOf).Perm (g'.ops.map essenceOf) := by
  rw [essence_eq hUniq, essence_eq hUniq'] at hEss
  injection hEss with hInputs hOuts hOps hWires _ hNext
  refine ⟨hInputs, hOuts, hWires, hNext, (g.sortedOps_perm.map essenceOf).symm.trans ?_⟩
  rw [hOps]
  exact g'.sortedOps_perm.map essenceOf

theorem op?_essence (n : Nat) : g.essence.op? n = (g.op? n).map essenceOf := by
  have hIds : (g.sortedOps.map Node.id).Nodup :=
    (g.sortedOps_perm.map Node.id).nodup_iff.mpr hUniq
  have hFind : g.sortedOps.find? (fun node => node.id == n) = g.op? n := by
    cases hOp : g.op? n with
    | none =>
      rw [find?_eq_none]
      intro node hN
      exact find?_eq_none.mp hOp node (g.sortedOps_perm.subset hN)
    | some node =>
      rcases op?_eq_some hOp with ⟨hN, hId⟩
      exact (find?_key_eq_some_iff hIds).mpr ⟨g.sortedOps_perm.symm.subset hN, hId⟩
  rw [essence_eq hUniq]
  change (g.sortedOps.map essenceOf).find? (fun node => node.id == n) = _
  rw [find?_map, ← hFind]
  rfl

theorem op?_of_essence (hUniq' : (g'.ops.map Node.id).Nodup) (hEss : g.essence = g'.essence)
    (n : Nat) : (g.op? n).map essenceOf = (g'.op? n).map essenceOf := by
  rw [← op?_essence hUniq, hEss, op?_essence hUniq']

end

theorem essence_of_alike (hA : g.Alike g') (hUniq : (g.ops.map Node.id).Nodup) :
    g.essence = g'.essence := by
  apply essence_eq_of_perm hUniq hA.inputs.symm hA.outputs.symm hA.wires.symm hA.nextId.symm
  rw [hA.ops]

theorem Intact.essence_copy (hI : g.Intact) : g.copy.essence = g.essence := by
  induction hI with
  | intro g hS hBodies ih =>
    have hMir := hS.mirrors_copy
    symm
    apply essence_eq_of_perm hS.unique hMir.inputs.symm hMir.outputs.symm
      hMir.wires.symm (by rw [hS.copy_eq])
    rw [hS.copy_eq]
    simp only [map_map]
    have hSame : g.sortedOps.map (essenceOf ∘ fun node =>
        { node with body := node.body.map Graph.copy }) = g.sortedOps.map essenceOf := by
      apply map_congr_left
      intro node hN
      have hOld : node ∈ g.ops := g.sortedOps_perm.subset hN
      have hB : (node.body.map Graph.copy).map essence = node.body.map essence := by
        cases hSome : node.body with
        | none => rfl
        | some body => exact congrArg some (ih node hOld body hSome)
      simp only [Function.comp_apply, essenceOf, hB]
    rw [hSame]
    exact (g.sortedOps_perm.map essenceOf).symm

theorem Intact.bodyAt?_essence (hI : g.Intact) (path : List Nat) :
    g.essence.bodyAt? path = (g.bodyAt? path).map essence := by
  induction path generalizing g with
  | nil => rfl
  | cons n path ih =>
    rw [Graph.bodyAt?, Graph.bodyAt?, op?_essence hI.sound.unique]
    cases hOp : g.op? n with
    | none => rfl
    | some node =>
      simp only [Option.map_some, essenceOf]
      cases hB : node.body with
      | none => rfl
      | some body => exact ih (hI.body (op?_eq_some hOp).1 hB)

theorem Intact.exists_bodyAt?_of_essence (hI : g.Intact) (hI' : g'.Intact)
    (hEss : g'.essence = g.essence) {path : List Nat} {body' : Graph K}
    (hB : g'.bodyAt? path = some body') :
    ∃ body, g.bodyAt? path = some body ∧ body'.essence = body.essence := by
  have hIn := hI'.bodyAt?_essence path
  rw [hEss, hI.bodyAt?_essence, hB, Option.map_some] at hIn
  rcases Option.map_eq_some_iff.mp hIn with ⟨body, hThere, hSame⟩
  exact ⟨body, hThere, hSame.symm⟩

theorem Intact.essence_replaceAt (hI : g.Intact) (path : List Nat) (body : Graph K) :
    (g.replaceAt path body).essence = g.essence.replaceAt path body.essence := by
  induction path generalizing g with
  | nil => rfl
  | cons n path ih =>
    have hUniq := hI.sound.unique
    have hUniq' := (mirrors_replaceAt g n path body).ids_perm.nodup_iff.mpr hUniq
    have hSort : (g.replaceAt (n :: path) body).sortedOps =
        g.sortedOps.map (withBodyAt n path body) :=
      sortedOps_of_map (fun node => by unfold withBodyAt; split <;> rfl) rfl
    rw [essence_eq hUniq', essence_eq hUniq, hSort]
    simp only [Graph.replaceAt, map_map]
    congr 1
    apply map_congr_left
    intro node hN
    have hOld : node ∈ g.ops := g.sortedOps_perm.subset hN
    by_cases hId : node.id = n
    · cases hB : node.body with
      | none => simp [essenceOf, withBodyAt, hId, hB]
      | some inner => simp [essenceOf, withBodyAt, hId, hB, ih (hI.body hOld hB)]
    · simp [essenceOf, withBodyAt, hId]

---- Levels Put Back ----

variable {body body' : Graph K} {path : List Nat}

theorem replaceAt_replaceAt (g : Graph K) (path : List Nat) (body body' : Graph K) :
    (g.replaceAt path body).replaceAt path body' = g.replaceAt path body' := by
  induction path generalizing g with
  | nil => rfl
  | cons n path ih =>
    simp only [Graph.replaceAt, map_map]
    congr 1
    apply map_congr_left
    intro node _
    by_cases hId : node.id = n
    · simp [hId, Function.comp_def, ih]
    · simp [hId]

theorem Intact.replaceAt_self (hI : g.Intact) (hB : g.bodyAt? path = some body) :
    g.replaceAt path body = g := by
  induction path generalizing g with
  | nil => exact (Option.some.inj hB).symm
  | cons n path ih =>
    rcases bodyAt?_cons_iff.mp hB with ⟨node, inner, hOp, hIn, hRest⟩
    rcases op?_eq_some hOp with ⟨hN, hId⟩
    have hOps : g.ops.map (withBodyAt n path body) = g.ops.map id := by
      apply map_congr_left
      intro other hOther
      by_cases hSame : other.id = n
      · obtain rfl := eq_of_key_eq hI.sound.unique hOther hN (hSame.trans hId.symm)
        rw [withBodyAt, if_pos hSame, hIn, Option.map_some, ih (hI.body hN hIn) hRest, ← hIn]
        rfl
      · rw [withBodyAt, if_neg hSame]
        rfl
    change { g with ops := g.ops.map (withBodyAt n path body) } = g
    rw [hOps, map_id]
    cases g
    rfl

---- Descriptions ----

def describeNode (number : Nat → Nat) (body : Option Value) (node : Node (Graph K)) : Value :=
  .record ([("id", .whole (number node.id)), ("op", .text node.kind.name),
    ("params", .list ((Param.values node.params).map Value.decimal))] ++
      (body.map (fun v => ("body", v))).toList)

def entryOf (node : Node (Graph K)) : Value :=
  describeNode (fun n => n) (node.body.map toDescription) node

theorem toDescription_level (hUniq : (g.ops.map Node.id).Nodup) : g.toDescription =
      .record [("inputs", exportTypes g.inputs), ("outputs", exportTypes g.outputs),
        ("nodes", .list (g.sortedOps.map entryOf)), ("wires", .list (g.sortedWires.map exportWire))] := by
  have hNodes : g.sortedOps.map (exportNode (g.bodyValues toDescription)) =
      g.sortedOps.map entryOf := by
    refine map_congr_left (fun node hN => ?_)
    rw [exportNode, valueOf?_map_bodies hUniq toDescription (mem_sortedOps_iff.mp hN)]
    unfold entryOf describeNode
    cases node.body <;> rfl
  rw [← hNodes]
  exact fold_eq _ g

theorem unique_essence (hUniq : (g.ops.map Node.id).Nodup) : (g.essence.ops.map Node.id).Nodup := by
  rw [essence_eq hUniq, map_map]
  exact (g.sortedOps_perm.map Node.id).nodup_iff.mpr hUniq

theorem sortedOps_essence (hUniq : (g.ops.map Node.id).Nodup) :
    g.essence.sortedOps = g.sortedOps.map essenceOf := by
  have hSame : ∀ node : Node (Graph K), (id node).id = node.id := fun _ => rfl
  have hSame' : ∀ node : Node (Graph K), (essenceOf node).id = node.id := fun _ => rfl
  rw [← map_id g.essence.sortedOps]
  apply sortedOps_map_eq hSame hSame' (unique_essence hUniq)
  rw [map_id, essence_eq hUniq]
  exact g.sortedOps_perm.map essenceOf

theorem Intact.toDescription_essence (hI : g.Intact) :
    g.essence.toDescription = g.toDescription := by
  induction hI with
  | intro g hS hBodies ih =>
    have hUniq := hS.unique
    have hNodes : g.essence.sortedOps.map entryOf = g.sortedOps.map entryOf := by
      rw [sortedOps_essence hUniq, map_map]
      apply map_congr_left
      intro node hN
      have hOld : node ∈ g.ops := g.sortedOps_perm.subset hN
      cases hB : node.body with
      | none => simp [essenceOf, entryOf, describeNode, hB]
      | some body => simp [essenceOf, entryOf, describeNode, hB, ih node hOld body hB]
    rw [toDescription_level (unique_essence hUniq), toDescription_level hUniq, hNodes,
      essence_eq hUniq]
    rfl

theorem Intact.toDescription_eq (hI : g.Intact) (hI' : g'.Intact)
    (hEss : g.essence = g'.essence) : g.toDescription = g'.toDescription := by
  rw [← hI.toDescription_essence, hEss, hI'.toDescription_essence]

end Graph

end CircuitGraph
