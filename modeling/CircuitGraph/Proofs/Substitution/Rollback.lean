import CircuitGraph.Proofs.Match.Live
import CircuitGraph.Substitution.Commit

/-
  Plans that come to nothing.

  A plan may be forged or out of date.  Whatever becomes of
  it, the graph goes through changes that a sound graph
  allows.
-/

---- Properties Kept by Edits ----

namespace CircuitGraph

open List

namespace Graph

variable {K : Type} {P : Graph K → Prop}

section

variable (hWire : ∀ g w, P g → P (g.eraseWire w))

include hWire

theorem keeps_cut_of (w : Wire) : Keeps P (cut w) := by
  refine Ends.keeps (fun g hBef => .get_bind ?_)
  split
  · exact .of_throw hBef
  · exact Ends.set_bind (f := pure) (.of_pure (hWire _ _ hBef))

theorem keeps_removeOp_of {n : Nat} (hN : ∀ g, P g → P (g.eraseNode n)) (id : Value)
    (cascade : Bool) : Keeps P (removeOp n id cascade) := by
  refine Ends.keeps (fun g hBef => .get_bind ?_)
  split
  · exact .of_throw hBef
  · refine .of_ite (fun _ => .throw_bind hBef) (fun _ => ?_)
    refine Ends.bind (.of_keeps (.forM (fun w _ => keeps_cut_of hWire w)) hBef) ?_
    exact fun _ g₁ hCut => .modify_bind (.of_pure (hN g₁ hCut))

end

theorem ends_addOp (kind : Kind) (params : List Param) (body : Option (Graph K)) (g : Graph K) :
    Ends (addOp kind params body) g (fun n g' => n = g.nextId ∧
        g' = insertNode { g with nextId := n + 1 } ⟨n, kind, params, body, none⟩)
      (fun _ g' => g' = g) := by
  refine (ends_addNodeWith kind (.ok params) body none g).mono ?_ (fun _ _ => And.left)
  rintro n g' ⟨hId, -, ps, hParams, -, hAfter⟩
  obtain rfl := Except.ok.inj hParams
  exact ⟨hId, hAfter⟩

theorem keeps_join_of [Scalar K] {src dst : Pin} (hWire : ∀ g, P g → P (g.insertWire ⟨src, dst⟩)) :
    Keeps P (join src dst) := by
  refine .bind .of_get (fun _ => .bind (.ofExcept _) (fun _ => .bind (.ofExcept _) (fun _ => ?_)))
  refine .bind (Ends.keeps (fun g hBef => .get_bind ?_)) (fun _ => .of_pure ())
  refine .of_ite (fun _ => .throw_bind hBef) (fun _ => ?_)
  refine .of_ite (fun _ => .throw_bind hBef) (fun _ => ?_)
  exact .of_ite (fun _ => .throw_bind hBef) (fun _ => .set_bind (.of_pure (hWire g hBef)))

---- Ids of Old Operations ----

variable {start : Nat} {ids : List Nat}

def Renewed (start : Nat) (ids : List Nat) (g : Graph K) : Prop :=
  start ≤ g.nextId ∧ ∀ node ∈ g.ops, node.id < start → node.id ∈ ids

theorem renewed_cut (w : Wire) : Keeps (Renewed (K := K) start ids) (cut w) :=
  keeps_cut_of (fun _ _ hRenewed => hRenewed) w

theorem renewed_removeOp (n : Nat) (id : Value) (cascade : Bool) :
    Keeps (Renewed (K := K) start ids) (removeOp n id cascade) := by
  refine keeps_removeOp_of (fun _ _ hRenewed => hRenewed) (fun g hRenewed => ?_) id cascade
  exact ⟨hRenewed.1, fun node hN => hRenewed.2 node (mem_filter.mp hN).1⟩

theorem renewed_addOp (kind : Kind) (params : List Param) (body : Option (Graph K)) :
    Keeps (Renewed start ids) (addOp kind params body) := by
  refine Ends.keeps (fun g hRenewed => (ends_addOp kind params body g).mono ?_ ?_)
  · rintro _ _ ⟨rfl, rfl⟩
    refine ⟨Nat.le_succ_of_le hRenewed.1, fun node hN hOld => ?_⟩
    rcases mem_append.mp hN with hM | hNew
    · exact hRenewed.2 node hM hOld
    · rw [mem_singleton.mp hNew] at hOld
      exact absurd hRenewed.1 (Nat.not_le_of_lt hOld)
  · rintro _ _ rfl
    exact hRenewed

theorem renewed_join [Scalar K] (src dst : Pin) :
    Keeps (Renewed (K := K) start ids) (join src dst) := by
  refine keeps_join_of (fun g hRenewed => ?_)
  rwa [Renewed, (alike_insertWire g _).ops, (alike_insertWire g _).nextId]

---- Taking Out and Putting Back ----

variable {g : Graph K}

/- Whether operations can be put into a graph one after the other. -/
structure Restorable (P : Graph K → Prop) (g : Graph K) (nodes : List (Node (Graph K))) : Prop where
  ids_nodup : (nodes.map Node.id).Nodup
  sound : ∀ node ∈ nodes, node.Sound
  bodies : ∀ node ∈ nodes, ∀ b, node.body = some b → P b
  operation : ∀ node ∈ nodes, isOpId node.id = true
  issued : ∀ node ∈ nodes, node.id < g.nextId
  fresh : ∀ node ∈ nodes, node.id ∉ g.ops.map Node.id

theorem Restorable.of_renewed {nodes : List (Node (Graph K))} (hNodes : Restorable P g nodes)
    {g' : Graph K} (hRenewed : Renewed g.nextId (g.ops.map Node.id) g') :
    Restorable P g' nodes where
  ids_nodup := hNodes.ids_nodup
  sound := hNodes.sound
  bodies := hNodes.bodies
  operation := hNodes.operation
  issued node hN := Nat.lt_of_lt_of_le (hNodes.issued node hN) hRenewed.1
  fresh node hN hM := by
    rcases mem_map.mp hM with ⟨other, hOther, hId⟩
    have hOld := hRenewed.2 other hOther (hId ▸ hNodes.issued node hN)
    exact hNodes.fresh node hN (hId ▸ hOld)

theorem ops_of_removeOp {n : Nat} {id : Value} {cascade : Bool} {node : Node (Graph K)}
    {g' : Graph K} (hY : Yields (removeOp n id cascade) g node g') :
    g.op? n = some node ∧ g'.ops = g.ops.filter (fun node => node.id != n) ∧
      g'.nextId = g.nextId := by
  have hCut : ∀ w, Keeps (fun h : Graph K => h.ops = g.ops ∧ h.nextId = g.nextId) (cut w) :=
    keeps_cut_of (fun _ _ hSame => hSame)
  unfold removeOp at hY
  have hRest := hY.get_bind
  cases hOp : g.op? n with
  | none => simp [hOp] at hRest
  | some found =>
    simp only [hOp] at hRest
    split at hRest
    · simp at hRest
    · rcases yields_bind_iff.mp hRest with ⟨_, g₁, hCuts, hErase⟩
      rcases yields_bind_iff.mp hErase with ⟨_, g₂, hModify, hPure⟩
      obtain ⟨rfl, rfl⟩ := yields_pure_iff.mp hPure
      rcases (Keeps.forM (fun w _ => hCut w)).of_yields hCuts ⟨rfl, rfl⟩ with ⟨hOps, hNext⟩
      rw [yields_modify_iff.mp hModify]
      exact ⟨rfl, by rw [eraseNode, hOps], hNext⟩

/- The graph `g'` is what is left of `g` without some of its operations. -/
structure Parted (g g' : Graph K) (taken : List (Node (Graph K))) : Prop where
  ids_nodup : (taken.map Node.id).Nodup
  mem : ∀ node ∈ taken, node ∈ g.ops
  gone : ∀ node ∈ taken, node.id ∉ g'.ops.map Node.id
  left : ∀ node ∈ g'.ops, node ∈ g.ops
  nextId : g'.nextId = g.nextId

theorem Parted.restorable {taken : List (Node (Graph K))} {g' : Graph K}
    (hParted : Parted g g' taken) (hS : g.Sound)
    (hBodies : ∀ node ∈ g.ops, ∀ b, node.body = some b → P b) : Restorable P g' taken where
  ids_nodup := hParted.ids_nodup
  sound node hN := hS.nodes node (hParted.mem node hN)
  bodies node hN := hBodies node (hParted.mem node hN)
  operation node hN := hS.operation node (hParted.mem node hN)
  issued node hN := by
    rw [hParted.nextId]
    exact hS.issued node (hParted.mem node hN)
  fresh := hParted.gone

variable [Scalar K] {g₀ : Graph K}

theorem ends_detach (hChg : Changed P g₀ g) (s : Slot) :
    Ends (detach s) g (fun out g' => Changed P g₀ g' ∧ Parted g g' [out.1])
      (fun _ => Changed P g₀) := by
  refine .get_bind (.of_ite (fun _ => .throw_bind hChg) (fun _ => ?_))
  refine Ends.bind (Q := fun node g' => Changed P g₀ g' ∧ Parted g g' [node])
    ⟨fun node g' hY => ⟨(keeps_removeOp _ _ _).of_yields hY hChg, ?_⟩, ?_⟩
    (fun _ _ hAfter => .of_pure hAfter)
  · rcases ops_of_removeOp hY with ⟨hOp, hOps, hNext⟩
    rcases hChg.sound.op?_iff.mp hOp with ⟨hM, hId⟩
    refine ⟨by simp, by simpa using hM, by simp [hOps, hId], fun other hOther => ?_, hNext⟩
    rw [hOps] at hOther
    exact (mem_filter.mp hOther).1
  · exact (Ends.of_keeps (keeps_removeOp s.toNat s.toValue true) hChg).2

theorem ends_detachAll (hChg : Changed P g₀ g) (slots : List Slot) : Ends (slots.mapM detach) g
      (fun removed g' => Changed P g₀ g' ∧ Parted g g' (removed.map Prod.fst))
      (fun _ => Changed P g₀) := by
  induction slots generalizing g with
  | nil =>
    rw [mapM_nil]
    exact .of_pure ⟨hChg, by simp, by simp, by simp, fun _ hN => hN, rfl⟩
  | cons s slots ih =>
    rw [mapM_cons]
    refine (ends_detach hChg s).bind (fun out g₁ hFirst => ?_)
    refine (ih hFirst.1).bind (fun removed g₂ hOthers => .of_pure ⟨hOthers.1, ?_⟩)
    have hHead := hFirst.2
    have hTail := hOthers.2
    have hOut : out.1.id ∉ g₁.ops.map Node.id := hHead.gone out.1 (by simp)
    refine ⟨?_, ?_, ?_, fun node hN => hHead.left node (hTail.left node hN),
      hTail.nextId.trans hHead.nextId⟩
    · refine nodup_cons.mpr ⟨fun hM => ?_, hTail.ids_nodup⟩
      rcases mem_map.mp hM with ⟨node, hN, hId⟩
      exact hOut (hId ▸ mem_map_of_mem (hTail.mem node hN))
    · intro node hN
      rcases mem_cons.mp hN with rfl | hN
      · exact hHead.mem _ (by simp)
      · exact hHead.left node (hTail.mem node hN)
    · intro node hN
      rcases mem_cons.mp hN with rfl | hN
      · intro hM
        rcases mem_map.mp hM with ⟨other, hOther, hId⟩
        exact hOut (hId ▸ mem_map_of_mem (hTail.left other hOther))
      · exact hTail.gone node hN

theorem ends_restoreAll (hChg : Changed P g₀ g) {removed : List (Node (Graph K) × List Wire)}
    (hRestorable : Restorable P g (removed.map Prod.fst)) :
    Ends (removed.forM (fun entry => modify (fun g => g.insertNode entry.1)) : Edit K Unit) g
      (fun _ => Changed P g₀) (fun _ => Changed P g₀) := by
  induction removed generalizing g with
  | nil => exact .of_pure hChg
  | cons entry removed ih =>
    have hNodes := hRestorable
    rw [map_cons] at hNodes
    have hHead : entry.1 ∈ entry.1 :: removed.map Prod.fst := mem_cons_self
    refine .modify_bind (ih (hChg.step (.insertNode (hNodes.sound _ hHead)
      (hNodes.bodies _ hHead) (hNodes.operation _ hHead) (hNodes.issued _ hHead)
      (hNodes.fresh _ hHead))) ?_)
    have hTail {node : Node (Graph K)} (hN : node ∈ removed.map Prod.fst) :
        node ∈ entry.1 :: removed.map Prod.fst := mem_cons_of_mem _ hN
    have hApart := nodup_cons.mp hNodes.ids_nodup
    refine ⟨hApart.2, fun _ hN => hNodes.sound _ (hTail hN),
      fun _ hN => hNodes.bodies _ (hTail hN), fun _ hN => hNodes.operation _ (hTail hN),
      fun _ hN => hNodes.issued _ (hTail hN), fun node hN hM => ?_⟩
    rcases mem_map.mp hM with ⟨other, hOther, hId⟩
    rcases mem_append.mp hOther with hOld | hNew
    · exact hNodes.fresh node (hTail hN) (hId ▸ mem_map_of_mem hOld)
    · rw [mem_singleton.mp hNew] at hId
      exact hApart.1 (hId ▸ mem_map_of_mem hN)

---- Carrying Out a Plan ----

theorem keeps_withdraw (n : Nat) :
    Keeps (fun g => Changed P g₀ g ∧ Renewed start ids g) (withdraw n) := by
  refine Ends.keeps (fun g hBoth => .get_bind (.of_ite (fun _ => ?_) (fun _ => .of_pure hBoth)))
  refine Ends.bind (.of_keeps ((keeps_removeOp n _ true).and (renewed_removeOp n _ true)) hBoth) ?_
  exact fun _ _ hAfter => .of_pure hAfter

theorem keeps_cutPassing (p : Plan) (consumer : Pin) :
    Keeps (fun g => Changed P g₀ g ∧ Renewed start ids g) (cutPassing p consumer) := by
  refine Ends.keeps (fun g hBoth => .get_bind ?_)
  split
  · refine .of_ite (fun _ => ?_) (fun _ => .of_pure hBoth)
    exact .of_keeps ((keeps_cut _).and (renewed_cut _)) hBoth
  · exact .of_pure hBoth

theorem keeps_restoreWire (w : Wire) : Keeps (Changed P g₀) (restoreWire w) := by
  refine Ends.keeps (fun g hChg => .get_bind (.of_ite (fun _ => ?_) (fun _ => .of_pure hChg)))
  exact .of_keeps (keeps_join _ _) hChg

theorem keeps_splice {replacement : Graph K}
    (hBodies : ∀ node ∈ replacement.ops, ∀ b, node.body = some b → P b.copy) (p : Plan) :
    Keeps (fun g => Changed P g₀ g ∧ Renewed start ids g) (splice replacement p) := by
  refine .bind (.mapM (fun node hN => ?_)) (fun _ => .forM (fun w _ => ?_))
  · have hCopy : ∀ b, node.body.map Graph.copy = some b → P b := by
      intro b hB
      rcases Option.map_eq_some_iff.mp hB with ⟨body, hOwn, rfl⟩
      exact hBodies node (mem_mergeSort.mp hN) body hOwn
    exact .bind ((keeps_addNodeWith _ _ (.inr rfl) hCopy).and (renewed_addOp _ _ _))
      (fun _ => .of_pure _)
  · exact .bind (.ofExcept _) (fun _ => .bind (.ofExcept _) (fun _ =>
      .forM (fun _ _ => (keeps_join _ _).and (renewed_join _ _))))

theorem ends_rollback {g₁ g : Graph K} (hChg : Changed P g₀ g)
    (hRenewed : Renewed g₁.nextId (g₁.ops.map Node.id) g)
    {removed : List (Node (Graph K) × List Wire)}
    (hRestorable : Restorable P g₁ (removed.map Prod.fst)) (p : Plan) (inserted : List Nat) :
    Ends (rollback p removed inserted) g (fun _ => Changed P g₀) (fun _ => Changed P g₀) := by
  have hFirst : Keeps (fun g => Changed P g₀ g ∧ Renewed g₁.nextId (g₁.ops.map Node.id) g)
      (inserted.forM withdraw) := .forM (fun n _ => keeps_withdraw n)
  have hSecond : Keeps (fun g => Changed P g₀ g ∧ Renewed g₁.nextId (g₁.ops.map Node.id) g)
      (p.consumers.flatten.forM (cutPassing p)) := .forM (fun c _ => keeps_cutPassing p c)
  have hLast : Keeps (Changed P g₀) (removed.forM (fun entry => entry.2.forM restoreWire)) :=
    .forM (fun _ _ => .forM (fun w _ => keeps_restoreWire w))
  refine Ends.bind ((Ends.of_keeps hFirst ⟨hChg, hRenewed⟩).mono (fun _ _ h => h)
    (fun _ _ h => h.1)) (fun _ g₂ hBoth => ?_)
  refine Ends.bind ((Ends.of_keeps hSecond hBoth).mono (fun _ _ h => h)
    (fun _ _ h => h.1)) (fun _ g₃ hCut => ?_)
  refine (ends_restoreAll hCut.1 (hRestorable.of_renewed hCut.2)).bind (fun _ g₄ hBack => ?_)
  exact .of_keeps hLast hBack

end Graph

namespace RuleSet

variable {K : Type} [Scalar K] {rs : RuleSet K} {P : Graph K → Prop} {g₀ : Graph K}

section

variable
  (hBodies : ∀ rule ∈ rs.rules, ∀ node ∈ rule.replacement.ops, ∀ b, node.body = some b → P b.copy)

include hBodies

theorem keeps_carryOut (p : Plan) : Keeps (Graph.Changed P g₀) (rs.carryOut p) := by
  refine Ends.keeps (fun g hChg => .ofExcept_bind (fun rule hRule => ?_) (fun _ _ => hChg))
  have hRep := hBodies rule (mem_of_getElem? (rule_eq_ok_iff.mp hRule))
  refine (Graph.ends_detachAll hChg p.found.nodes).bind (fun removed g₁ hTaken => .get_bind ?_)
  have hRestorable := hTaken.2.restorable hChg.sound hChg.bodies
  have hStart : Graph.Renewed g₁.nextId (g₁.ops.map Node.id) g₁ :=
    ⟨Nat.le_refl _, fun _ hN _ => mem_map_of_mem hN⟩
  refine Ends.bind (Q := fun _ => Graph.Changed P g₀)
    (.tryCatch (E := fun _ g => Graph.Changed P g₀ g ∧
      Graph.Renewed g₁.nextId (g₁.ops.map Node.id) g) ?_ ?_) ?_
  · refine Ends.bind (.of_keeps (Graph.keeps_splice hRep p) ⟨hTaken.1, hStart⟩) ?_
    exact fun _ g₂ hBoth => .get_bind (.mono (.of_keeps (.ofExcept _) hBoth) (fun _ _ h => h.1)
      (fun _ _ h => h))
  · intro fault g₂ hBoth
    cases fault with
    | structural cause =>
      refine .get_bind ?_
      exact (Graph.ends_rollback hBoth.1 hBoth.2 hRestorable p _).bind
        (fun _ _ hBack => .of_throw hBack)
    | _ => exact .of_throw hBoth.1
  · exact fun _ _ hDone => .get_bind (.of_pure hDone)

theorem keeps_commit (p : Plan) : Keeps (Graph.Changed P g₀) (rs.commit p) := by
  have hPlan : Keeps (Graph.Changed P g₀) (rs.plan p.found) := fun g hChg =>
    hChg.of_reranked (Reads.plan rs p.found g g .refl)
  refine .bind ?_ (fun out => keeps_carryOut hBodies out.1)
  refine Ends.keeps (fun g hChg => .get_bind (.of_ite (fun _ => .of_pure hChg) (fun _ => ?_)))
  exact .of_keeps (hPlan.bind (fun _ => .of_pure _)) hChg

end

end RuleSet

end CircuitGraph
