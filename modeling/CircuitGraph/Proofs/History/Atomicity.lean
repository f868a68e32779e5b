import CircuitGraph.Proofs.History.Calls

/-
  Edits that fail.

  An edit that fails has changed nothing, with one exception.
  The wires at a node are listed by both of their ends, so a
  wire from a node to itself is listed twice.

  Main declarations:
    * `RemovesLoop`: the exception
    * `failed_edits_change_nothing_iff`
-/

---- Edits and Loops ----

namespace CircuitGraph

open List

variable {K : Type} {ws : List Wire} {cascade : Bool}

namespace GraphCall

def isEdit : GraphCall K → Bool
  | addNode .. | addAround .. | connect .. | disconnect .. | removeNode .. => true
  | _ => false

/- Whether a call removes an operation that is wired to itself, wires included. -/
def RemovesLoop (c : GraphCall K) (g : Graph K) : Prop :=
  ∃ id n, c = .removeNode id true ∧ g.named? id = some n ∧ g.Edge n n

end GraphCall

---- Edits That Change Nothing When They Fail ----

namespace Graph

variable {g g' : Graph K} {fault : Fault}

theorem eq_of_fails_connect [Scalar K] {src dst : PinName}
    (hFails : Fails (connect src dst) g fault g') : g' = g := by
  have hEnds : Ends (connect src dst) g (fun _ _ => True) (fun _ h => h = g) := by
    refine .get_bind (.ofExcept_bind (fun s _ => ?_) (fun _ _ => rfl))
    refine .ofExcept_bind (fun d _ => ?_) (fun _ _ => rfl)
    refine .ofExcept_bind (fun from? _ => ?_) (fun _ _ => rfl)
    refine .ofExcept_bind (fun to? _ => .get_bind ?_) (fun _ _ => rfl)
    refine .of_ite (fun _ => .throw_bind rfl) (fun _ => ?_)
    refine .of_ite (fun _ => .throw_bind rfl) (fun _ => ?_)
    exact .of_ite (fun _ => .throw_bind rfl) (fun _ => .set_bind (.of_pure trivial))
  exact hEnds.2 fault g' hFails

theorem eq_of_fails_disconnect {src dst : PinName}
    (hFails : Fails (disconnect src dst) g fault g') : g' = g := by
  have hEnds : Ends (disconnect src dst) g (fun _ _ => True) (fun _ h => h = g) := by
    refine .get_bind (.of_ite (fun _ => .throw_bind rfl) (fun _ => ?_))
    split
    · exact .of_throw rfl
    · exact Ends.set_bind (f := pure) (.of_pure trivial)
  exact hEnds.2 fault g' hFails

---- Cutting Wires ----

theorem exists_of_cutAll {u : Unit} (hY : Yields (ws.forM cut) g u g') :
    ∀ w ∈ ws, ∃ v ∈ g.wires, w.same v = true := by
  induction ws generalizing g with
  | nil => simp
  | cons w ws ih =>
    rcases yields_forM_cons_iff.mp hY with ⟨g₁, hCut, hRest⟩
    unfold cut at hCut
    have hFinding := hCut.get_bind
    split at hFinding
    · exact absurd hFinding Edit.not_yields_refuse
    · rename_i h v hFnd
      obtain rfl := yields_set_iff.mp hFinding
      intro w' hM
      rcases mem_cons.mp hM with rfl | hM
      · exact ⟨v, mem_of_find?_eq_some hFnd, find?_some hFnd⟩
      · rcases ih hRest w' hM with ⟨v', hL, hSame⟩
        exact ⟨v', mem_of_mem_erase hL, hSame⟩

namespace Sound

theorem without_wire (hS : g.Sound) (w : Wire) : (g.eraseWire w).Sound :=
  (hS.restrictWires erase_sublist).of_alike (alike_eraseWire g w)

theorem nodup_of_cutAll (hS : g.Sound) (hM : ∀ w ∈ ws, w ∈ g.wires) {u : Unit}
    (hY : Yields (ws.forM cut) g u g') : ws.Nodup := by
  induction ws generalizing g with
  | nil => exact .nil
  | cons w ws ih =>
    have hHead : w ∈ g.wires := hM w mem_cons_self
    rcases yields_forM_cons_iff.mp hY with ⟨g₁, hCut, hRest⟩
    obtain rfl := (hCut.unique (hS.yields_cut hHead)).2
    have hNew : w ∉ ws := by
      intro hAgain
      rcases exists_of_cutAll hRest w hAgain with ⟨v, hL, hSame⟩
      rcases hS.wires_nodup.mem_erase_iff.mp hL with ⟨hNe, hOld⟩
      simp only [Wire.same, Pin.same, Bool.and_eq_true, beq_iff_eq] at hSame
      exact hNe (hS.wire_eq_of_dst hOld hHead hSame.2.symm)
    refine nodup_cons.mpr ⟨hNew, ih (hS.without_wire w) (fun v hV => ?_) hRest⟩
    have hNe : v ≠ w := fun hEq => hNew (hEq ▸ hV)
    exact (mem_erase_of_ne hNe).mpr (hM v (mem_cons_of_mem _ hV))

theorem version_lt_of_fails_cutAll (hS : g.Sound) (hM : ∀ w ∈ ws, w ∈ g.wires)
    (hFails : Fails (ws.forM cut) g fault g') : g.version < g'.version := by
  have hKeeps (w : Wire) : Keeps (fun h : Graph K => g.version < h.version) (cut w) := by
    refine Ends.keeps (fun h hLater => .get_bind ?_)
    split
    · exact .of_throw hLater
    · exact Ends.set_bind (f := pure) (.of_pure (Nat.lt_succ_of_lt hLater))
  cases ws with
  | nil => exact absurd hFails not_fails_pure
  | cons w ws =>
    have hFirst := hS.yields_cut (hM w mem_cons_self)
    rcases fails_bind_iff.mp hFails with hCut | ⟨_, g₁, hCut, hRest⟩
    · exact absurd hCut hFirst.not_fails
    · obtain rfl := (hCut.unique hFirst).2
      have hRun : Keeps (fun h : Graph K => g.version < h.version) (ws.forM cut) :=
        .forM (fun v _ => hKeeps v)
      exact (Ends.of_keeps hRun (Nat.lt_succ_self _)).2 fault g' hRest

theorem not_nodup_incidentWires (hS : g.Sound) {n : Nat} (hLoop : g.Edge n n) :
    ¬ (g.incidentWires n).Nodup := by
  rcases hLoop with ⟨w, hM, hSrc, hDst⟩
  rcases hS.typed w hM with ⟨t, hOut, hIn⟩
  intro hNodup
  refine (nodup_append.mp hNodup).2.2 w ?_ w ?_ rfl
  · refine mem_filterMap.mpr ⟨w.dst.index, mem_range.mpr ?_, ?_⟩
    · exact hDst ▸ (lt_of_getElem? hIn)
    · exact hS.wireInto?_iff.mpr ⟨hM, by rw [← hDst]; rfl⟩
  · refine mem_flatMap.mpr ⟨w.src.index, mem_range.mpr ?_, ?_⟩
    · exact hSrc ▸ (lt_of_getElem? hOut)
    · exact mem_wiresFrom_iff.mpr ⟨hM, by rw [← hSrc]; rfl⟩

end Sound

---- Removals ----

variable {n : Nat} {id : Value}

theorem fails_removeOp_cases (hFails : Fails (removeOp n id cascade) g fault g') :
    g' = g ∨ cascade = true ∧ Fails ((g.incidentWires n).forM cut) g fault g' := by
  have hEnds : Ends (removeOp n id cascade) g (fun _ _ => True)
      (fun fault h => h = g ∨ cascade = true ∧ Fails ((g.incidentWires n).forM cut) g fault h) := by
    refine .get_bind ?_
    split
    · exact .of_throw (.inl rfl)
    · refine .of_ite (fun _ => .throw_bind (.inl rfl)) (fun hAlw => ?_)
      refine Ends.bind (Q := fun _ _ => True) ⟨fun _ _ _ => trivial, fun fault h hCuts => ?_⟩
        (fun _ _ _ => .modify_bind (.of_pure trivial))
      cases cascade with
      | true => exact .inr ⟨rfl, hCuts⟩
      | false =>
        -- without wires there is nothing to cut
        have hNone : g.incidentWires n = [] := by simpa using hAlw
        rw [hNone] at hCuts
        exact absurd hCuts not_fails_pure
  exact hEnds.2 fault g' hFails

namespace Sound

theorem eq_of_fails_removeOp (hS : g.Sound) (hLoop : cascade = true → ¬ g.Edge n n)
    (hFails : Fails (removeOp n id cascade) g fault g') : g' = g := by
  rcases fails_removeOp_cases hFails with hSame | ⟨rfl, hCuts⟩
  · exact hSame
  · have hM : ∀ w ∈ g.incidentWires n, w ∈ g.wires := fun w hIncident =>
      (hS.mem_incidentWires_iff.mp hIncident).1
    rcases hS.yields_cutAll hM (hS.incidentWires_nodup (hLoop rfl)) with ⟨h, hY, -⟩
    exact absurd hCuts hY.not_fails

theorem fails_removeOp_of_loop (hS : g.Sound) (hLoop : g.Edge n n) (id : Value) :
    ∃ fault h, Fails (removeOp n id true) g fault h ∧ g.version < h.version := by
  have hM : ∀ w ∈ g.incidentWires n, w ∈ g.wires := fun w hIncident =>
    (hS.mem_incidentWires_iff.mp hIncident).1
  have hOp : n ∈ g.opIds := (hS.edge_source hLoop).resolve_left (fun hIn =>
    hS.not_edge_inputId n (hIn ▸ hLoop))
  rcases Option.isSome_iff_exists.mp (isSome_op?_iff.mpr hOp) with ⟨node, hN⟩
  rcases yields_or_fails ((g.incidentWires n).forM cut) g with ⟨u, h, hY⟩ | ⟨fault, h, hFails⟩
  · exact absurd (hS.nodup_of_cutAll hM hY) (hS.not_nodup_incidentWires hLoop)
  · refine ⟨fault, h, ?_, hS.version_lt_of_fails_cutAll hM hFails⟩
    unfold removeOp
    refine Yields.fails_bind rfl ?_
    simp only [hN, Bool.not_true, Bool.and_false, Bool.false_eq_true, if_false]
    exact hFails.bind

end Sound

theorem fails_removeNode_cases (hFails : Fails (removeNode id cascade) g fault g') :
    g' = g ∨ ∃ n, g.named? id = some n ∧ Fails (removeOp n id cascade) g fault g' := by
  have hEnds : Ends (removeNode id cascade) g (fun _ _ => True)
      (fun fault h => h = g ∨ ∃ n, g.named? id = some n ∧
        Fails (removeOp n id cascade) g fault h) := by
    refine .get_bind (.of_ite (fun _ => .throw_bind (.inl rfl)) (fun _ => ?_))
    split
    · exact .of_throw (.inl rfl)
    · rename_i n hNamed
      exact ⟨fun _ _ _ => trivial, fun fault h hRemove => .inr ⟨n, hNamed, hRemove⟩⟩
  exact hEnds.2 fault g' hFails

theorem removeNode_of_named (hNamed : g.named? id = some n)
    (hFails : Fails (removeOp n id cascade) g fault g') :
    Fails (removeNode id cascade) g fault g' := by
  have hScalar : id.isScalar = true := by
    have hNatural := (Option.filter_eq_some_iff.mp hNamed).1
    cases id with
    | list _ | record _ => simp [Value.natural?, Value.integer?] at hNatural
    | _ => rfl
  unfold removeNode
  refine Yields.fails_bind rfl ?_
  simp only [hScalar, hNamed, Bool.not_true, Bool.false_eq_true, if_false]
  exact hFails

end Graph

---- Atomic Edits ----

variable [Scalar K] {g : Graph K} {call : GraphCall K}

theorem Graph.Sound.eq_of_fails_edit (hS : g.Sound) (hEdit : call.isEdit = true)
    (hLoop : ¬ call.RemovesLoop g) {fault : Fault} {g' : Graph K}
    (hFails : Fails call.run g fault g') : g' = g := by
  cases call with
  | addNode kind params body => exact ((ends_addNodeWith ..).2 _ _ (fails_map_iff.mp hFails)).1
  | addAround kind params boundary =>
    exact ((ends_addNodeWith ..).2 _ _ (fails_map_iff.mp hFails)).1
  | connect src dst => exact eq_of_fails_connect (fails_map_iff.mp hFails)
  | disconnect src dst => exact eq_of_fails_disconnect (fails_map_iff.mp hFails)
  | removeNode id cascade =>
    rcases fails_removeNode_cases (fails_map_iff.mp hFails) with hSame | ⟨n, hNamed, hRemove⟩
    · exact hSame
    · refine hS.eq_of_fails_removeOp (fun hCascade hEdge => hLoop ?_) hRemove
      exact ⟨id, n, hCascade ▸ rfl, hNamed, hEdge⟩
  | _ => cases hEdit

theorem Graph.Sound.changed_of_removesLoop (hS : g.Sound) (hLoop : call.RemovesLoop g) :
    ∃ fault g', Fails call.run g fault g' ∧ g.version < g'.version := by
  rcases hLoop with ⟨id, n, rfl, hNamed, hEdge⟩
  rcases hS.fails_removeOp_of_loop hEdge id with ⟨fault, g', hFails, hVer⟩
  exact ⟨fault, g', fails_map_iff.mpr (removeNode_of_named hNamed hFails), hVer⟩

/-
  On a graph with any history, whatever its wires, an edit
  leaves everything as it was whenever it fails, if and only if
  it is not the removal of an operation together with its wires
  where one of them runs from the operation to itself.
-/
theorem failed_edits_change_nothing_iff
    (inputs outputs : List WireType)
    (calls : List (GraphCall K))
    (call : GraphCall K)
    (hEdit : call.isEdit = true) :
    (∀ fault g', Fails call.run ((Graph.empty inputs outputs).after calls) fault g' →
        g' = (Graph.empty inputs outputs).after calls) ↔
      ¬ call.RemovesLoop ((Graph.empty inputs outputs).after calls) := by
  have hSound := ((Graph.sound_empty (K := K) inputs outputs).after calls).1
  constructor
  · intro hAtomic hLoop
    rcases hSound.changed_of_removesLoop hLoop with ⟨fault, g', hFails, hVersion⟩
    rw [hAtomic fault g' hFails] at hVersion
    exact Nat.lt_irrefl _ hVersion
  · exact fun hLoop fault g' hFails => hSound.eq_of_fails_edit hEdit hLoop hFails

def inverterLoop : List (GraphCall ℚ) :=
  [.addNode .x [] none, .connect ⟨.output, .whole 2, .whole 0⟩ ⟨.input, .whole 2, .whole 0⟩]

/- The inverter cannot be removed as long as it has its wire, and all stays as it is. -/
theorem failed_edits_change_nothing_iff_loop :
    (GraphCall.removeNode (K := ℚ) (.whole 2) false).isEdit = true ∧
      ((Graph.empty [] []).after inverterLoop).Edge 2 2 ∧
      ∃ fault, Fails (GraphCall.removeNode (.whole 2) false).run
        ((Graph.empty [] []).after inverterLoop) fault ((Graph.empty [] []).after inverterLoop) := by
  have hFails : ∃ fault g', Fails (GraphCall.removeNode (.whole 2) false).run
      ((Graph.empty [] []).after inverterLoop) fault g' := ⟨_, _, rfl⟩
  rcases hFails with ⟨fault, g', hFails⟩
  have hSame := (failed_edits_change_nothing_iff [] [] inverterLoop (.removeNode (.whole 2) false)
    rfl).mpr (by rintro ⟨_, _, hCall, -⟩; cases hCall) fault g' hFails
  rw [hSame] at hFails
  exact ⟨rfl, ⟨_, mem_singleton.mpr rfl, rfl, rfl⟩, fault, hFails⟩

/- Removed together with its wire, the inverter stays, but the wire is gone. -/
theorem removal_of_loop_loses_wire :
    ∃ fault g', Fails (GraphCall.removeNode (.whole 2) true).run
        ((Graph.empty [] []).after inverterLoop) fault g' ∧
      ((Graph.empty [] []).after inverterLoop).wires.length = 1 ∧ g'.wires = [] ∧
      g'.opIds = [2] ∧ ((Graph.empty [] []).after inverterLoop).version = 4 ∧ g'.version = 5 :=
  ⟨_, _, rfl, rfl, rfl, rfl, rfl, rfl⟩

end CircuitGraph
