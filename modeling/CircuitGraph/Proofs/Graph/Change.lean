import CircuitGraph.Graph.Rank
import CircuitGraph.Proofs.Graph.Edits

/-
  What edits can do to a graph.

  Every edit, whether it succeeds or not, comes down to a few
  changes that a sound graph allows.
-/

---- Changes ----

namespace CircuitGraph

open List

namespace Graph

variable {K : Type} [Scalar K]

/- A change that a sound graph allows, where new bodies have a given property. -/
inductive Change (P : Graph K → Prop) : Graph K → Graph K → Prop where
  | issue (g : Graph K) :
      Change P g { g with nextId := g.nextId + 1 }
  | insertNode {g : Graph K} {node : Node (Graph K)} (sound : node.Sound)
      (body : ∀ b, node.body = some b → P b) (operation : isOpId node.id = true)
      (issued : node.id < g.nextId) (fresh : node.id ∉ g.ops.map Node.id) :
      Change P g (g.insertNode node)
  | insertWire {g : Graph K} {w : Wire} {t : WireType} (output : g.outType? w.src.place = some t)
      (input : g.inType? w.dst.place = some t) (free : ∀ v ∈ g.wires, v.dst.place ≠ w.dst.place)
      (linear : t ≠ .bool → ∀ v ∈ g.wires, v.src.place ≠ w.src.place) :
      Change P g (g.insertWire w)
  | eraseWire {g : Graph K} {w : Wire} (mem : w ∈ g.wires) :
      Change P g (g.eraseWire w)
  | eraseNode {g : Graph K} {n : Nat} (operation : isOpId n = true)
      (apart : ∀ w ∈ g.wires, w.src.node ≠ n ∧ w.dst.node ≠ n) :
      Change P g (g.eraseNode n)
  | rerank (g : Graph K) :
      Change P g (outcome topologicalRanks g).2

---- What Changes Keep ----

variable {K : Type}

def Unchanged (g g' : Graph K) : Prop :=
  g.Alike g' ∧ g'.version = g.version ∧ g'.index = g.index

namespace Unchanged

variable {g g' g'' : Graph K}

theorem refl (g : Graph K) : g.Unchanged g :=
  ⟨.refl g, rfl, rfl⟩

theorem trans (hL : g.Unchanged g') (hR : g'.Unchanged g'') : g.Unchanged g'' :=
  ⟨hL.1.trans hR.1, hR.2.1.trans hL.2.1, hR.2.2.trans hL.2.2⟩

end Unchanged

variable [Scalar K]

theorem unchanged_rankAfresh (g : Graph K) : g.Unchanged (outcome rankAfresh g).2 := by
  refine Ends.keeps (P := g.Unchanged) (fun s hSame => .get_bind (.ofExcept_bind ?_ ?_)) g (.refl g)
  · exact fun order _ => .set_bind (.of_pure (hSame.trans ⟨rfl, rfl, rfl⟩))
  · exact fun _ _ => hSame

theorem unchanged_topologicalRanks (g : Graph K) : g.Unchanged (outcome topologicalRanks g).2 := by
  have hAfresh : Keeps g.Unchanged (rankAfresh (K := K)) :=
    fun s hSame => hSame.trans (unchanged_rankAfresh s)
  refine Ends.keeps (P := g.Unchanged) (fun s hSame => .get_bind ?_) g (.refl g)
  split
  · exact .of_keeps hAfresh hSame
  · split
    · exact .set_bind (.of_pure (hSame.trans ⟨rfl, rfl, rfl⟩))
    · exact .set_bind (.of_keeps hAfresh (hSame.trans ⟨rfl, rfl, rfl⟩))

/- Whether a graph has come about by finding the ranks of another one, perhaps many times. -/
def Reranked (g g' : Graph K) : Prop :=
  Relation.ReflTransGen (fun a b => b = (outcome topologicalRanks a).2) g g'

theorem Reranked.unchanged {g g' : Graph K} (hRer : g.Reranked g') : g.Unchanged g' := by
  induction hRer with
  | refl => exact .refl g
  | tail _ hStep ih => exact ih.trans (hStep ▸ unchanged_topologicalRanks _)

variable {P : Graph K → Prop} {g g' : Graph K}

theorem Sound.of_change (hS : g.Sound) (hChange : Change P g g') : g'.Sound := by
  cases hChange with
  | issue => exact hS.raiseNextId (Nat.le_succ _)
  | insertNode hN hB hOp hIssued hFresh =>
    exact (hS.appendOp hN hOp hIssued hFresh).of_alike (alike_insertNode g _)
  | insertWire hOut hIn hFree hLin =>
    exact (hS.appendWire hOut hIn hFree hLin).of_alike (alike_insertWire g _)
  | eraseWire hM => exact (hS.restrictWires erase_sublist).of_alike (alike_eraseWire g _)
  | @eraseNode n _ hApart =>
    refine (hS.filterOps (· != n) (fun w hM => ?_)).of_alike (alike_eraseNode g n)
    simpa using hApart w hM
  | rerank => exact hS.of_alike (unchanged_topologicalRanks g).1

theorem bodies_of_change (hBodies : ∀ node ∈ g.ops, ∀ b, node.body = some b → P b)
    (hChange : Change P g g') : ∀ node ∈ g'.ops, ∀ b, node.body = some b → P b := by
  intro node hN b hB
  cases hChange with
  | issue => exact hBodies node hN b hB
  | insertNode hS hNew hOp hIssued hFresh =>
    rcases mem_append.mp hN with hOld | hLast
    · exact hBodies node hOld b hB
    · rw [mem_singleton] at hLast
      exact hNew b (hLast ▸ hB)
  | insertWire =>
    rw [(alike_insertWire g _).ops] at hN
    exact hBodies node hN b hB
  | eraseWire => exact hBodies node hN b hB
  | eraseNode => exact hBodies node (mem_filter.mp hN).1 b hB
  | rerank =>
    rw [(unchanged_topologicalRanks g).1.ops] at hN
    exact hBodies node hN b hB

theorem version_of_change (hChange : Change P g g') : g.version < g'.version ∨
      g'.version = g.version ∧ Alike { g with nextId := g'.nextId } g' := by
  cases hChange with
  | issue => exact .inr ⟨rfl, .refl _⟩
  | insertWire =>
    unfold insertWire
    split <;> exact .inl (Nat.lt_succ_self _)
  | rerank =>
    rcases unchanged_topologicalRanks g with ⟨hA, hVer, -⟩
    exact .inr ⟨hVer, hA.nextId ▸ hA⟩
  | _ => exact .inl (Nat.lt_succ_self _)

theorem steady_of_changes (hChanges : Relation.ReflTransGen (Change P) g g') :
    g.version ≤ g'.version ∧
      (g'.version = g.version → Alike { g with nextId := g'.nextId } g') := by
  induction hChanges with
  | refl => exact ⟨Nat.le_refl _, fun _ => .refl _⟩
  | @tail h h' _ hChange ih =>
    rcases version_of_change hChange with hLater | ⟨hVer, hA⟩
    · exact ⟨Nat.le_of_lt (Nat.lt_of_le_of_lt ih.1 hLater), fun hSame => absurd hSame (by omega)⟩
    · refine ⟨hVer ▸ ih.1, fun hSame => ?_⟩
      have hBef := ih.2 (hVer.symm.trans hSame)
      exact .of_parts (hA.inputs.trans hBef.inputs) (hA.outputs.trans hBef.outputs)
        (hA.ops.trans hBef.ops) (hA.wires.trans hBef.wires) rfl

end Graph

---- Edits ----

namespace Slot

theorem toNat_spelled {v : Value} {n : Nat} (hEqual : v.natural? = some n) :
    (spelled n v).toNat = n := by
  unfold spelled
  split
  · rename_i b
    simpa [Value.natural?, Value.integer?, toNat] using hEqual
  · rename_i x
    split
    · rename_i m e hFinite
      simp only [Value.natural?, Value.integer?, Binary64.integer?, hFinite] at hEqual
      split at hEqual
      · simp only [if_true, Option.bind_some, Option.ite_none_right_eq_some] at hEqual
        generalize m * Nat.pow 2 e.toNat / Nat.pow 2 (-e).toNat = magnitude at hEqual
        rw [← Option.some.inj hEqual.2, toNat]
        omega
      · simp at hEqual
    · rfl
  · rfl

theorem toNat_spelled_position {v : Value} {i : Int} (hEqual : v.position? = some i) :
    (spelled i.toNat v).toNat = i.toNat := by
  cases v with
  | truth b =>
    obtain rfl : ((b.toNat : Nat) : Int) = i := by simpa [Value.position?] using hEqual
    simp [spelled, toNat]
  | whole j => rfl
  | _ => simp [Value.position?] at hEqual

end Slot

namespace Graph

variable {K : Type} {g₀ g : Graph K}

theorem mem_of_cut (hS : g.Sound) {w : Wire} {u : Unit} {g' : Graph K}
    (hY : Yields (cut w) g u g') : ∀ v ∈ g'.wires, v ∈ g.wires ∧ v ≠ w := by
  by_cases hM : w ∈ g.wires
  · obtain ⟨-, rfl⟩ := hY.unique (hS.yields_cut hM)
    intro v hL
    have hBoth := (hS.wires_nodup.mem_erase_iff).mp hL
    exact ⟨hBoth.2, hBoth.1⟩
  · unfold cut at hY
    have hRest := hY.get_bind
    split at hRest
    · simp at hRest
    · rename_i found _
      rw [yields_set_iff.mp hRest]
      intro v hL
      have hOld : v ∈ _ := mem_of_mem_erase hL
      exact ⟨hOld, fun hEq => hM (hEq ▸ hOld)⟩

theorem pin_of_named {pin : PinName} {side : Side} {n : Nat} {p : Pin} {t : WireType}
    (hN : g.checkPin pin side = .ok n) (hPin : g.typedPin n pin = .ok (p, t)) :
    (g.pinTypes p.node side)[p.index]? = some t := by
  unfold checkPin at hN
  split at hN
  · simp at hN
  · rename_i hSide
    obtain rfl := not_not.mp hSide
    split at hN
    · simp at hN
    · split at hN
      · simp at hN
      · rename_i m hNamed
        have hNatural : pin.node.natural? = some m := (Option.filter_eq_some_iff.mp hNamed).1
        unfold typedPin at hPin
        split at hPin
        · simp at hPin
        · rename_i i hPosition
          split at hPin
          · rename_i t' hType
            obtain ⟨rfl, rfl⟩ := Prod.mk.inj (Except.ok.inj hPin)
            split at hN
            · obtain rfl := Except.ok.inj hN
              simpa [Pin.node, Pin.index, Slot.toNat_spelled hNatural,
                Slot.toNat_spelled_position hPosition] using hType
            · simp at hN
            · simp at hN
          · simp at hPin

variable [Scalar K] {P : Graph K → Prop}

/- Whether a sound graph has come about by changes of another one. -/
structure Changed (P : Graph K → Prop) (g₀ g : Graph K) : Prop where
  sound : g.Sound
  bodies : ∀ node ∈ g.ops, ∀ b, node.body = some b → P b
  changes : Relation.ReflTransGen (Change P) g₀ g

theorem Sound.changed (hS : g.Sound) : Changed (fun _ => True) g g :=
  ⟨hS, fun _ _ _ _ => trivial, .refl⟩

theorem Changed.step (hChg : Changed P g₀ g) {g' : Graph K} (hChange : Change P g g') :
    Changed P g₀ g' :=
  ⟨hChg.sound.of_change hChange, bodies_of_change hChg.bodies hChange, hChg.changes.tail hChange⟩

theorem Changed.of_reranked (hChg : Changed P g₀ g) {g' : Graph K} (hRer : g.Reranked g') :
    Changed P g₀ g' := by
  induction hRer with
  | refl => exact hChg
  | tail _ hStep ih => exact ih.step (hStep ▸ .rerank _)

theorem keeps_cut (w : Wire) : Keeps (Changed P g₀) (cut w) := by
  refine Ends.keeps (fun g hChg => .get_bind ?_)
  split
  · exact .of_throw hChg
  · rename_i v hFnd
    refine Ends.set_bind (f := pure) (.of_pure ?_)
    exact hChg.step (.eraseWire (mem_of_find?_eq_some hFnd))

theorem keeps_disconnect (src dst : PinName) : Keeps (Changed P g₀) (disconnect src dst) := by
  refine Ends.keeps (fun g hChg => .get_bind ?_)
  refine .of_ite (fun _ => .throw_bind hChg) (fun _ => ?_)
  split
  · exact .of_throw hChg
  · rename_i w hFnd
    refine Ends.set_bind (f := pure) (.of_pure ?_)
    exact hChg.step (.eraseWire (mem_of_find?_eq_some hFnd))

theorem mem_of_cutAll (hS : g.Sound) {ws : List Wire} {u : Unit} {g' : Graph K}
    (hY : Yields (ws.forM cut) g u g') : ∀ v ∈ g'.wires, v ∈ g.wires ∧ v ∉ ws := by
  induction ws generalizing g with
  | nil =>
    rw [yields_forM_nil_iff.mp hY]
    simp
  | cons w ws ih =>
    rcases yields_forM_cons_iff.mp hY with ⟨g₁, hFirst, hRest⟩
    have hS₁ : g₁.Sound :=
      ((keeps_cut (P := fun _ => True) w).of_yields hFirst
        ⟨hS, fun _ _ _ _ => trivial, .refl⟩).sound
    intro v hL
    rcases ih hS₁ hRest v hL with ⟨hMid, hOthers⟩
    rcases mem_of_cut hS hFirst v hMid with ⟨hOld, hNe⟩
    exact ⟨hOld, fun hM => (mem_cons.mp hM).elim hNe hOthers⟩

theorem keeps_removeOp (n : Nat) (id : Value) (cascade : Bool) :
    Keeps (Changed P g₀) (removeOp n id cascade) := by
  refine Ends.keeps (fun g hChg => .get_bind ?_)
  split
  · exact .of_throw hChg
  · rename_i node hOp
    have hOperation : isOpId n = true := by
      rcases hChg.sound.op?_iff.mp hOp with ⟨hN, rfl⟩
      exact hChg.sound.operation node hN
    refine .of_ite (fun _ => .throw_bind hChg) (fun _ => ?_)
    have hCuts : Keeps (Changed P g₀) ((g.incidentWires n).forM cut) :=
      .forM (fun w _ => keeps_cut w)
    refine Ends.bind (Q := fun _ g₁ => Changed P g₀ g₁ ∧ ∀ v ∈ g₁.wires, v ∈ g.wires ∧
      v ∉ g.incidentWires n) ⟨?_, ?_⟩ ?_
    · exact fun u g₁ hY => ⟨hCuts.of_yields hY hChg, mem_of_cutAll hChg.sound hY⟩
    · intro fault g₁ hFails
      have hAfter := hCuts g hChg
      rwa [hFails] at hAfter
    · rintro ⟨⟩ g₁ ⟨hChg₁, hApart⟩
      refine .modify_bind (.of_pure (hChg₁.step (.eraseNode hOperation (fun w hM => ?_))))
      rcases hApart w hM with ⟨hOld, hNot⟩
      rw [hChg.sound.mem_incidentWires_iff] at hNot
      exact ⟨fun hSrc => hNot ⟨hOld, .inl hSrc⟩, fun hDst => hNot ⟨hOld, .inr hDst⟩⟩

theorem keeps_removeNode (id : Value) (cascade : Bool) :
    Keeps (Changed P g₀) (removeNode id cascade) := by
  refine Ends.keeps (fun g hChg => .get_bind ?_)
  refine .of_ite (fun _ => .throw_bind hChg) (fun _ => ?_)
  split
  · exact .of_throw hChg
  · exact .of_keeps (keeps_removeOp _ id cascade) hChg

theorem keeps_addNodeWith (kind : Kind) (params : Except Fault (List Param))
    {body : Option (Graph K)} {enclosing : Option Signature}
    (hOwned : body = none ∨ enclosing = none) (hB : ∀ b, body = some b → P b) :
    Keeps (Changed P g₀) (addNodeWith kind params body enclosing) := by
  refine Ends.keeps (fun g hChg => (ends_addNodeWith kind params body enclosing g).mono ?_
    (fun _ _ hSame => hSame.1 ▸ hChg))
  rintro _ _ ⟨rfl, hKind, ps, -, hCount, rfl⟩
  rcases kindFault?_eq_none_iff.mp hKind with ⟨hIn, hCont⟩
  have hN : Node.Sound (⟨g.nextId, kind, ps, body, enclosing⟩ : Node (Graph K)) := by
    refine ⟨hIn, hCount, hCont.trans ?_, hOwned⟩
    cases body <;> rfl
  refine (hChg.step (.issue g)).step (.insertNode hN hB ?_ (Nat.lt_succ_self _) ?_)
  · simpa [isOpId] using hChg.sound.started
  · intro hM
    rcases mem_map.mp hM with ⟨other, hOther, hId⟩
    exact absurd (hChg.sound.issued other hOther) (hId ▸ Nat.lt_irrefl _)

theorem ends_link (hChg : Changed P g₀ g) (src dst : PinName) {w : Wire}
    {carried expected : WireType} (hOut : g.outType? w.src.place = some carried)
    (hIn : g.inType? w.dst.place = some expected) :
    Ends (link src dst w carried expected) g (fun _ => Changed P g₀) (fun _ => Changed P g₀) := by
  refine .get_bind (.of_ite (fun _ => .throw_bind hChg) (fun hTypes => ?_))
  refine .of_ite (fun _ => .throw_bind hChg) (fun hInto => ?_)
  refine .of_ite (fun _ => .throw_bind hChg) (fun hFrom => .set_bind (.of_pure ?_))
  obtain rfl := not_not.mp hTypes
  refine hChg.step (.insertWire hOut hIn ?_ ?_)
  · intro v hM hPlace
    refine hInto (find?_isSome.mpr ⟨v, hM, ?_⟩)
    simpa [Pin.place] using hPlace
  · intro hLin v hM hPlace
    refine hFrom ?_
    have hSome : v ∈ g.wiresFrom w.src.node w.src.index := mem_wiresFrom_iff.mpr ⟨hM, hPlace⟩
    cases carried with
    | bool => exact absurd rfl hLin
    | _ => simpa [WireType.copyable] using ne_nil_of_mem hSome

theorem keeps_join (src dst : Pin) : Keeps (Changed P g₀) (join src dst) := by
  refine Ends.keeps (fun g hChg => .get_bind ?_)
  refine .ofExcept_bind (fun carried hOut => ?_) (fun _ _ => hChg)
  refine .ofExcept_bind (fun expected hIn => ?_) (fun _ _ => hChg)
  exact (ends_link (w := ⟨src, dst⟩) hChg _ _ (pinType_eq_ok_iff.mp hOut) (pinType_eq_ok_iff.mp hIn)).bind
    (fun _ _ hAfter => .of_pure hAfter)

theorem keeps_connect (src dst : PinName) : Keeps (Changed P g₀) (connect src dst) := by
  refine Ends.keeps (fun g hChg => .get_bind ?_)
  refine .ofExcept_bind (fun s hSrc => ?_) (fun _ _ => hChg)
  refine .ofExcept_bind (fun d hDst => ?_) (fun _ _ => hChg)
  refine .ofExcept_bind (fun srcPin hOut => ?_) (fun _ _ => hChg)
  refine .ofExcept_bind (fun dstPin hIn => ?_) (fun _ _ => hChg)
  exact ends_link hChg src dst (pin_of_named hSrc hOut) (pin_of_named hDst hIn)

end Graph

end CircuitGraph
