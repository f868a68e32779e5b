import CircuitGraph.Proofs.Graph.Edits
import CircuitGraph.Substitution.Commit

/-
  Substitutions do not look at ranks.

  Graphs that differ in their versions and ranks at most are
  edited alike: the result or the fault is the same, and so
  are operations and wires afterwards.
-/

---- Edits Side by Side ----

namespace CircuitGraph

variable {K α β : Type}

/-
  Whether two edits end in the same way: with the same result
  or fault, and with graphs that differ in their versions and
  ranks at most.
-/
def Abreast (e : Edit K α) (g : Graph K) (e' : Edit K α) (g' : Graph K) : Prop :=
  (outcome e g).1 = (outcome e' g').1 ∧ (outcome e g).2.Alike (outcome e' g').2

def Blind (e : Edit K α) : Prop :=
  ∀ g g' : Graph K, g.Alike g' → Abreast e g e g'

namespace Abreast

variable {e e' : Edit K α} {f f' : α → Edit K β} {g g' : Graph K}

theorem of_pure (hA : g.Alike g') (a : α) : Abreast (pure a) g (pure a) g' :=
  ⟨rfl, hA⟩

theorem of_throw (hA : g.Alike g') (fault : Fault) :
    Abreast (throw fault : Edit K α) g (throw fault) g' :=
  ⟨rfl, hA⟩

theorem of_set {h h' : Graph K} (hA : h.Alike h') : Abreast (set h) g (set h') g' :=
  ⟨rfl, hA⟩

theorem bind (hFirst : Abreast e g e' g')
    (hThen : ∀ a h h', h.Alike h' → Abreast (f a) h (f' a) h') :
    Abreast (e >>= f) g (e' >>= f') g' := by
  rcases hFirst with ⟨hRes, hA⟩
  unfold Abreast
  rw [outcome_bind, outcome_bind]
  rcases hL : outcome e g with ⟨result, h⟩
  rcases hR : outcome e' g' with ⟨result', h'⟩
  rw [hL, hR] at hRes hA
  obtain rfl : result = result' := hRes
  cases result with
  | ok a => exact hThen a h h' hA
  | error fault => exact ⟨rfl, hA⟩

theorem get_bind {f f' : Graph K → Edit K β} (hThen : Abreast (f g) g (f' g') g') :
    Abreast (get >>= f) g (get >>= f') g' :=
  hThen

theorem ofExcept_bind (hA : g.Alike g') {r r' : Except Fault α} (hSame : r' = r)
    (hThen : ∀ a, Abreast (f a) g (f' a) g') :
    Abreast (Edit.ofExcept r >>= f) g (Edit.ofExcept r' >>= f') g' := by
  subst hSame
  cases r' with
  | ok a => exact hThen a
  | error fault => exact ⟨rfl, hA⟩

theorem throw_bind (hA : g.Alike g') (fault : Fault) :
    Abreast ((throw fault : Edit K α) >>= f) g ((throw fault : Edit K α) >>= f') g' :=
  ⟨rfl, hA⟩

theorem of_ite {c : Prop} [Decidable c] {d d' : Edit K α} (hThen : c → Abreast e g e' g')
    (hElse : ¬ c → Abreast d g d' g') :
    Abreast (if c then e else d) g (if c then e' else d') g' := by
  by_cases hHolds : c
  · rw [if_pos hHolds, if_pos hHolds]
    exact hThen hHolds
  · rw [if_neg hHolds, if_neg hHolds]
    exact hElse hHolds

theorem tryCatch {handle : Fault → Edit K α} (hTry : Abreast e g e' g')
    (hHandle : ∀ fault, Blind (handle fault)) :
    Abreast (tryCatch e handle) g (tryCatch e' handle) g' := by
  rcases hTry with ⟨hRes, hA⟩
  unfold Abreast
  rw [outcome_tryCatch, outcome_tryCatch]
  rcases hL : outcome e g with ⟨result, h⟩
  rcases hR : outcome e' g' with ⟨result', h'⟩
  rw [hL, hR] at hRes hA
  obtain rfl : result = result' := hRes
  cases result with
  | ok a => exact ⟨rfl, hA⟩
  | error fault => exact hHandle fault h h' hA

end Abreast

namespace Blind

theorem of_pure (a : α) : Blind (pure a : Edit K α) :=
  fun _ _ hA => .of_pure hA a

theorem of_throw (fault : Fault) : Blind (throw fault : Edit K α) :=
  fun _ _ hA => .of_throw hA fault

theorem ofExcept (r : Except Fault α) : Blind (Edit.ofExcept r : Edit K α) := by
  cases r with
  | ok a => exact of_pure a
  | error fault => exact of_throw fault

theorem bind {e : Edit K α} {f : α → Edit K β} (hFirst : Blind e) (hThen : ∀ a, Blind (f a)) :
    Blind (e >>= f) :=
  fun g g' hA => (hFirst g g' hA).bind (fun a => hThen a)

theorem forM {f : α → Edit K Unit} (hEach : ∀ x, Blind (f x)) (xs : List α) :
    Blind (xs.forM f) := by
  induction xs with
  | nil => exact of_pure _
  | cons x xs ih => exact bind (hEach x) (fun _ => ih)

theorem mapM {f : α → Edit K β} (hEach : ∀ x, Blind (f x)) (xs : List α) : Blind (xs.mapM f) := by
  induction xs with
  | nil => exact of_pure []
  | cons x xs ih =>
    rw [List.mapM_cons]
    exact bind (hEach x) (fun _ => bind ih (fun _ => of_pure _))

end Blind

---- Edits of Nodes and Wires ----

namespace Graph

variable {g g' : Graph K}

theorem Alike.insertNode (hA : g.Alike g') (node : Node (Graph K)) :
    (g.insertNode node).Alike (g'.insertNode node) :=
  .of_parts hA.inputs hA.outputs (by rw [Graph.insertNode, Graph.insertNode, hA.ops])
    hA.wires hA.nextId

theorem Alike.eraseWire (hA : g.Alike g') (w : Wire) : (g.eraseWire w).Alike (g'.eraseWire w) :=
  .of_parts hA.inputs hA.outputs hA.ops
    (by rw [Graph.eraseWire, Graph.eraseWire, hA.wires]) hA.nextId

theorem Alike.eraseNode (hA : g.Alike g') (n : Nat) : (g.eraseNode n).Alike (g'.eraseNode n) :=
  .of_parts hA.inputs hA.outputs (by rw [Graph.eraseNode, Graph.eraseNode, hA.ops])
    hA.wires hA.nextId

theorem blind_cut (w : Wire) : Blind (cut w : Edit K Unit) := by
  intro g g' hA
  refine .get_bind ?_
  rw [hA.wires]
  cases g.wires.find? w.same with
  | none => exact .of_throw hA _
  | some v => exact .of_set (hA.eraseWire v)

theorem blind_removeOp (n : Nat) (id : Value) (cascade : Bool) :
    Blind (removeOp n id cascade : Edit K (Node (Graph K))) := by
  intro g g' hA
  refine .get_bind ?_
  rw [hA.congr (fun g => g.op? n) (fun _ => rfl),
    hA.congr (fun g => g.incidentWires n) (fun _ => rfl)]
  cases g.op? n with
  | none => exact .of_throw hA _
  | some node =>
    refine .of_ite (fun _ => .throw_bind hA _) (fun _ => ?_)
    refine (Blind.forM blind_cut _ g g' hA).bind (fun _ h h' hLater => ?_)
    exact .of_pure (hLater.eraseNode n) node

theorem blind_detach (s : Slot) : Blind (detach s : Edit K (Node (Graph K) × List Wire)) := by
  intro g g' hA
  refine .get_bind ?_
  rw [hA.congr (fun g => g.hasNode s.toNat) (fun _ => rfl),
    hA.congr (fun g => g.incidentWires s.toNat) (fun _ => rfl)]
  refine .of_ite (fun _ => .throw_bind hA _) (fun _ => ?_)
  exact (blind_removeOp _ _ _ g g' hA).bind (fun _ h h' hLater => .of_pure hLater _)

theorem blind_withdraw (n : Nat) : Blind (withdraw n : Edit K Unit) := by
  intro g g' hA
  refine .get_bind ?_
  rw [hA.congr (fun g => g.hasNode n) (fun _ => rfl)]
  cases g.hasNode n with
  | false => exact .of_pure hA _
  | true => exact (blind_removeOp _ _ _ g g' hA).bind (fun _ h h' hLater => .of_pure hLater _)

theorem blind_cutPassing (p : Plan) (consumer : Pin) :
    Blind (cutPassing p consumer : Edit K Unit) := by
  intro g g' hA
  refine .get_bind ?_
  rw [hA.congr (fun g => g.wireInto? consumer.node consumer.index) (fun _ => rfl)]
  cases g.wireInto? consumer.node consumer.index with
  | none => exact .of_pure hA _
  | some w =>
    dsimp only
    split
    · exact blind_cut w g g' hA
    · exact .of_pure hA _

theorem blind_addOp (kind : Kind) (params : List Param) (body : Option (Graph K)) :
    Blind (addOp kind params body) := by
  intro g g' hA
  unfold addOp addNodeWith
  have hNext : Abreast (do
      let g ← get
      let node : Node (Graph K) := ⟨g.nextId, kind, params, body, none⟩
      set ({ g with nextId := g.nextId + 1 }.insertNode node)
      return g.nextId) g (do
      let g ← get
      let node : Node (Graph K) := ⟨g.nextId, kind, params, body, none⟩
      set ({ g with nextId := g.nextId + 1 }.insertNode node)
      return g.nextId) g' := by
    refine .get_bind ?_
    rw [hA.nextId]
    have hIssued : Alike { g with nextId := g.nextId + 1 } { g' with nextId := g.nextId + 1 } :=
      .of_parts hA.inputs hA.outputs hA.ops hA.wires rfl
    exact (Abreast.of_set (hIssued.insertNode _)).bind (fun _ h h' hLater => .of_pure hLater _)
  split
  · exact .throw_bind hA _
  · exact .of_ite (fun _ => .throw_bind hA _) (fun _ => hNext)

variable [Scalar K]

theorem Alike.insertWire (hA : g.Alike g') (w : Wire) :
    (g.insertWire w).Alike (g'.insertWire w) := by
  refine (alike_insertWire g w).symm.trans (Alike.trans ?_ (alike_insertWire g' w))
  exact .of_parts hA.inputs hA.outputs hA.ops (by rw [hA.wires]) hA.nextId

theorem blind_link (src dst : PinName) (w : Wire) (carried expected : WireType) :
    Blind (link src dst w carried expected : Edit K Wire) := by
  intro g g' hA
  refine .get_bind ?_
  rw [hA.congr (fun g => g.wireInto? w.dst.node w.dst.index) (fun _ => rfl),
    hA.congr (fun g => g.wiresFrom w.src.node w.src.index) (fun _ => rfl)]
  refine .of_ite (fun _ => .throw_bind hA _) (fun _ => ?_)
  refine .of_ite (fun _ => .throw_bind hA _) (fun _ => ?_)
  refine .of_ite (fun _ => .throw_bind hA _) (fun _ => ?_)
  exact .of_pure (hA.insertWire w) w

theorem blind_join (src dst : Pin) : Blind (join src dst : Edit K Unit) := by
  intro g g' hA
  refine .get_bind ?_
  rw [hA.congr (fun g => g.pinType .output src) (fun _ => rfl),
    hA.congr (fun g => g.pinType .input dst) (fun _ => rfl)]
  refine .ofExcept_bind hA rfl (fun carried => .ofExcept_bind hA rfl (fun expected => ?_))
  exact (blind_link _ _ _ _ _ g g' hA).bind (fun _ h h' hLater => .of_pure hLater _)

theorem blind_restoreWire (w : Wire) : Blind (restoreWire w : Edit K Unit) := by
  intro g g' hA
  refine .get_bind ?_
  rw [hA.congr (fun g => g.wireInto? w.dst.node w.dst.index) (fun _ => rfl)]
  exact .of_ite (fun _ => blind_join _ _ g g' hA) (fun _ => .of_pure hA _)

end Graph

---- Substitutions ----

variable [Scalar K]

namespace Graph

omit [Scalar K] in
theorem Alike.searchCycleFrom {g g' : Graph K} (hA : g.Alike g') (near visited : List Nat) :
    g'.searchCycleFrom near visited = g.searchCycleFrom near visited := by
  have hSlots : g'.successorSlots = g.successorSlots :=
    hA.congr Graph.successorSlots (fun _ => rfl)
  have hNodes : g'.hasNode = g.hasNode := hA.congr Graph.hasNode (fun _ => rfl)
  induction near generalizing visited with
  | nil => rfl
  | cons n ns ih =>
    rw [Graph.searchCycleFrom, Graph.searchCycleFrom, hSlots, hNodes, hA.nodeIds]
    simp only [ih]

theorem blind_splice (replacement : Graph K) (p : Plan) : Blind (splice replacement p) := by
  refine .bind (.mapM (fun node => .bind (blind_addOp _ _ _) (fun n => .of_pure _)) _)
    (fun ids => .forM (fun w => ?_) _)
  exact .bind (.ofExcept _) (fun src => .bind (.ofExcept _) (fun dsts => .forM (blind_join src) dsts))

theorem blind_rollback (p : Plan) (removed : List (Node (Graph K) × List Wire))
    (inserted : List Nat) : Blind (rollback p removed inserted) := by
  refine .bind (.forM blind_withdraw _) (fun _ => .bind (.forM (blind_cutPassing p) _) (fun _ =>
    .bind (.forM (fun entry => ?_) _) (fun _ =>
      .forM (fun entry => .forM blind_restoreWire _) _)))
  exact fun g g' hA => ⟨rfl, hA.insertNode entry.1⟩

end Graph

namespace RuleSet

theorem blind_insertReplacement (replacement : Graph K) (p : Plan) (start : Nat) :
    Blind (insertReplacement replacement p start) := by
  refine .bind (Graph.blind_splice replacement p) (fun _ g g' hA => .get_bind ?_)
  dsimp only
  rw [hA.searchCycleFrom, idsSince, idsSince, hA.nextId]
  exact Blind.ofExcept _ g g' hA

/- A plan is carried out, or taken back, without a look at ranks. -/
theorem blind_carryOut (rs : RuleSet K) (p : Plan) : Blind (rs.carryOut p) := by
  refine .bind (.ofExcept _) (fun rule => .bind (.mapM Graph.blind_detach _) (fun removed => ?_))
  intro g g' hA
  refine .get_bind ?_
  rw [hA.nextId]
  refine Abreast.bind (Abreast.tryCatch (blind_insertReplacement _ p _ g g' hA) ?_) ?_
  · intro fault
    cases fault with
    | structural cause =>
      intro h h' hLater
      refine .get_bind ?_
      unfold idsSince
      rw [hLater.nextId]
      exact (Graph.blind_rollback p removed _ h h' hLater).bind
        (fun _ t t' hBack => .of_throw hBack _)
    | _ => exact .of_throw _
  · intro _ h h' hLater
    refine .get_bind ?_
    unfold idsSince
    rw [hLater.nextId]
    exact .of_pure hLater _

end RuleSet

end CircuitGraph
