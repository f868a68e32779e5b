import CircuitGraph.Proofs.Graph.WellFormed
import CircuitGraph.Proofs.Match.Constraint

/-
  What the constraints of a traced pattern say.

  Tracing a pattern goes through its wires, and each wire
  between operations that have been reached has one constraint.
-/

---- Wires ----

namespace CircuitGraph

open List

variable {K : Type} {w : Wire} {n var : Nat} {t t' : Tracing} {side : Side}

def Graph.Fits (pattern host : Graph K) (n m : Nat) : Prop :=
  Constraint.fits host ((pattern.kindOf? n).getD .input) (pattern.paramsOf n) m = true

def RootFirst (cs : List Constraint) : Prop :=
  ∃ kind params rest, cs = .root kind params :: rest ∧ ∀ c ∈ rest, c.isRoot = false

def Wire.near (w : Wire) : Side → Pin
  | .input => w.dst
  | .output => w.src

def Wire.far (w : Wire) : Side → Pin
  | .input => w.src
  | .output => w.dst

theorem joined_near_far_iff {host : Graph K} (side : Side) {f : Nat → Nat} :
    host.Joined side (f (w.near side).node, (w.near side).index)
        (f (w.far side).node, (w.far side).index) ↔
      host.Wired (f w.src.node, w.src.index) (f w.dst.node, w.dst.index) := by
  cases side <;> rfl

---- One Constraint for Each Wire ----

/-
  Whether constraints tell of wires one by one, `n` being the
  number of variables bound before: a constraint leads from
  one of these to another one, or to a new one, which stands
  for the next node.
-/
inductive Tells (pattern : Graph K) (nodes : List Nat) : Nat → List Constraint → List Wire → Prop
  | nil (n : Nat) : Tells pattern nodes n [] []
  | link {n var other : Nat} {side : Side} {w : Wire} {cs : List Constraint} {ws : List Wire}
      (var_lt : var < n) (other_lt : other < n) (near : nodes[var]? = some (w.near side).node)
      (far : nodes[other]? = some (w.far side).node) (rest : Tells pattern nodes n cs ws) :
      Tells pattern nodes n
        (.link var side (w.near side).index other (w.far side).slot :: cs) (w :: ws)
  | follow {n var : Nat} {side : Side} {w : Wire} {cs : List Constraint} {ws : List Wire}
      (var_lt : var < n) (near : nodes[var]? = some (w.near side).node)
      (far : nodes[n]? = some (w.far side).node) (rest : Tells pattern nodes (n + 1) cs ws) :
      Tells pattern nodes n
        (.follow var side (w.near side).index (w.far side).slot
          ((pattern.kindOf? (w.far side).node).getD .input)
          (pattern.paramsOf (w.far side).node) :: cs) (w :: ws)

namespace Tells

variable {pattern host : Graph K} {nodes nodes' : List Nat} {f : Nat → Nat} {cs ds : List Constraint}
  {ws vs : List Wire}

theorem append (hPre : nodes <+: nodes') (hTells : Tells pattern nodes n cs ws)
    (hMore : Tells pattern nodes' (boundAfter n cs) ds vs) :
    Tells pattern nodes' n (cs ++ ds) (ws ++ vs) := by
  have hGet : ∀ {i m : Nat}, nodes[i]? = some m → nodes'[i]? = some m := by
    rcases hPre with ⟨rest, rfl⟩
    exact fun hAt => getElem?_append_left (lt_of_getElem? hAt) ▸ hAt
  induction hTells with
  | nil => exact hMore
  | link hVar hOther hNear hFar _ ih =>
    exact .link hVar hOther (hGet hNear) (hGet hFar) (ih hMore)
  | follow hVar hNear hFar _ ih => exact .follow hVar (hGet hNear) (hGet hFar) (ih hMore)

theorem mem_nodes (hTells : Tells pattern nodes n cs ws) (hM : w ∈ ws) :
    w.src.node ∈ nodes ∧ w.dst.node ∈ nodes := by
  have hEnds : ∀ {w : Wire} (side : Side), (w.near side).node ∈ nodes → (w.far side).node ∈ nodes →
      w.src.node ∈ nodes ∧ w.dst.node ∈ nodes := by
    intro w side hNear hFar
    cases side
    · exact ⟨hFar, hNear⟩
    · exact ⟨hNear, hFar⟩
  induction hTells with
  | nil => simp at hM
  | link _ _ hNear hFar _ ih =>
    rcases mem_cons.mp hM with rfl | hRest
    · exact hEnds _ (mem_of_getElem? hNear) (mem_of_getElem? hFar)
    · exact ih hRest
  | follow _ hNear hFar _ ih =>
    rcases mem_cons.mp hM with rfl | hRest
    · exact hEnds _ (mem_of_getElem? hNear) (mem_of_getElem? hFar)
    · exact ih hRest

theorem of_mem (hTells : Tells pattern nodes n cs ws) {c : Constraint} (hM : c ∈ cs) :
    c.isRoot = false ∧ ∀ kind ∈ c.kind?, ∃ m ∈ nodes, (pattern.kindOf? m).getD .input = kind := by
  induction hTells with
  | nil => simp at hM
  | link _ _ _ _ _ ih =>
    rcases mem_cons.mp hM with rfl | hRest
    · exact ⟨rfl, by simp [Constraint.kind?]⟩
    · exact ih hRest
  | follow _ _ hFar _ ih =>
    rcases mem_cons.mp hM with rfl | hRest
    · exact ⟨rfl, fun kind hKind => ⟨_, mem_of_getElem? hFar, Option.some.inj hKind⟩⟩
    · exact ih hRest

theorem satisfies_iff (hTells : Tells pattern nodes n cs ws) (hBound : boundAfter n cs = nodes.length)
    (hFirst : ((nodes.map f).take n).Nodup) : Satisfies host (nodes.map f) n cs ↔
      (nodes.map f).Nodup ∧ (∀ m ∈ nodes.drop n, pattern.Fits host m (f m) ∧ isOpId (f m) = true) ∧
        ∀ w ∈ ws, host.Wired (f w.src.node, w.src.index) (f w.dst.node, w.dst.index) := by
  have hGet : ∀ {i m : Nat}, nodes[i]? = some m → (nodes.map f)[i]? = some (f m) :=
    fun hAt => by rw [getElem?_map, hAt, Option.map_some]
  induction hTells with
  | nil n =>
    rw [boundAfter_nil] at hBound
    subst hBound
    rw [take_of_length_le (by simp)] at hFirst
    simp [Satisfies, hFirst]
  | @link n var other side w _ _ hVar hOther hNear hFar _ ih =>
    have hHolds : Constraint.Holds host (nodes.map f) n
          (.link var side (w.near side).index other (w.far side).slot) ↔
        host.Wired (f w.src.node, w.src.index) (f w.dst.node, w.dst.index) := by
      rw [← joined_near_far_iff side]
      simp only [Constraint.Holds, hVar, hOther, hGet hNear, hGet hFar, Option.some.injEq, true_and,
        exists_and_left, exists_eq_left', Pin.index]
    rw [forall_mem_cons]
    refine (and_congr hHolds (ih hBound hFirst)).trans ?_
    exact and_left_comm.trans (and_congr_right' and_left_comm)
  | @follow n var side w _ _ hVar hNear hFar _ ih =>
    have hLt := (lt_of_getElem? (hGet hFar))
    have hSplit : (nodes.map f).drop n = f (w.far side).node :: (nodes.map f).drop (n + 1) := by
      rw [drop_eq_getElem_cons hLt, (List.getElem?_eq_some_iff.mp (hGet hFar)).2]
    have hRest : nodes.drop n = (w.far side).node :: nodes.drop (n + 1) := by
      rw [drop_eq_getElem_cons (by simpa using hLt), (List.getElem?_eq_some_iff.mp hFar).2]
    have hHolds : Constraint.Holds host (nodes.map f) n (.follow var side (w.near side).index
          (w.far side).slot ((pattern.kindOf? (w.far side).node).getD .input)
          (pattern.paramsOf (w.far side).node)) ↔
        host.Wired (f w.src.node, w.src.index) (f w.dst.node, w.dst.index) ∧
          isOpId (f (w.far side).node) = true ∧ f (w.far side).node ∉ (nodes.map f).take n ∧
          pattern.Fits host (w.far side).node (f (w.far side).node) := by
      rw [← joined_near_far_iff side]
      simp only [Constraint.Holds, hVar, hGet hNear, hGet hFar, Option.some.injEq, true_and,
        exists_and_left, exists_eq_left', Pin.index, Graph.Fits]
    rw [Satisfies, hHolds, hRest, forall_mem_cons, forall_mem_cons]
    by_cases hOld : f (w.far side).node ∈ (nodes.map f).take n
    · refine iff_of_false (fun hAll => hAll.1.2.2.1 hOld) (fun hAll => ?_)
      have hApart := hAll.1
      rw [← take_append_drop n (nodes.map f), nodup_append, hSplit] at hApart
      exact hApart.2.2 _ hOld _ mem_cons_self rfl
    · have hNext : ((nodes.map f).take (n + 1)).Nodup := by
        rw [take_succ_eq_append_getElem hLt, (List.getElem?_eq_some_iff.mp (hGet hFar)).2]
        exact hFirst.append (nodup_singleton _) (by simpa using hOld)
      refine (and_congr_right' (ih hBound hNext)).trans ?_
      constructor
      · rintro ⟨⟨hW, hOp, -, hFits⟩, hNodup, hAll, hWires⟩
        exact ⟨hNodup, ⟨⟨hFits, hOp⟩, hAll⟩, hW, hWires⟩
      · rintro ⟨hNodup, ⟨⟨hFits, hOp⟩, hAll⟩, hW, hWires⟩
        exact ⟨⟨hW, hOp, hOld, hFits⟩, hNodup, hAll, hWires⟩

end Tells

---- Steps ----

/- What holds of a tracing at any time. -/
structure Traced (pattern : Graph K) (root : Nat) (t : Tracing) : Prop where
  nodup : t.nodes.Nodup
  ops : ∀ n ∈ t.nodes, n ∈ pattern.opIds
  first : t.nodes.head? = some root
  tells : ∃ rest, t.constraints =
      .root ((pattern.kindOf? root).getD .input) (pattern.paramsOf root) :: rest ∧
    boundAfter 1 rest = t.nodes.length ∧ Tells pattern t.nodes 1 rest t.seen.reverse
  seen : t.seen.Nodup
  wires : ∀ w ∈ t.seen, w ∈ pattern.wires

/- Whether a tracing goes on from another one. -/
structure Tracing.Extends (t t' : Tracing) : Prop where
  nodes : t.nodes <+: t'.nodes
  seen : t.seen ⊆ t'.seen

theorem Tracing.Extends.refl (t : Tracing) : t.Extends t :=
  ⟨prefix_refl _, fun _ hM => hM⟩

theorem Tracing.Extends.trans {t'' : Tracing} (hL : t.Extends t') (hR : t'.Extends t'') :
    t.Extends t'' :=
  ⟨hL.nodes.trans hR.nodes, fun _ hM => hR.seen (hL.seen hM)⟩

theorem Tracing.Extends.getElem? (hExtends : t.Extends t') (hN : t.nodes[var]? = some n) :
    t'.nodes[var]? = some n := by
  rcases hExtends.nodes with ⟨rest, hNodes⟩
  rw [← hNodes, getElem?_append_left (lt_of_getElem? hN), hN]

variable {pattern : Graph K} {root : Nat}

theorem Traced.take (hTr : Traced pattern root t) (hM : w ∈ pattern.wires) (hNew : w ∉ t.seen)
    (extra : List Nat) (hNodup : (t.nodes ++ extra).Nodup) (hOps : ∀ n ∈ extra, n ∈ pattern.opIds)
    {c : Constraint} (hBound : c.bound t.nodes.length = (t.nodes ++ extra).length)
    (hTells : Tells pattern (t.nodes ++ extra) t.nodes.length [c] [w]) :
    Traced pattern root ⟨t.nodes ++ extra, w :: t.seen, t.constraints ++ [c]⟩ := by
  rcases hTr.tells with ⟨rest, hCons, hRest, hBef⟩
  refine ⟨hNodup, ?_, by simp [head?_append, hTr.first], ⟨rest ++ [c], ?_, ?_, ?_⟩,
    nodup_cons.mpr ⟨hNew, hTr.seen⟩, forall_mem_cons.mpr ⟨hM, hTr.wires⟩⟩
  · exact forall_mem_append.mpr ⟨hTr.ops, hOps⟩
  · rw [hCons, cons_append]
  · rw [boundAfter_append, hRest]
    exact hBound
  · rw [reverse_cons]
    exact hBef.append (prefix_append _ _) (hRest ▸ hTells)

namespace Graph

theorem traced_start (hRoot : root ∈ pattern.opIds) :
    Traced pattern root (pattern.startTracing root) :=
  ⟨by simp [startTracing], by simpa [startTracing] using hRoot, rfl,
    ⟨[], rfl, rfl, .nil 1⟩, .nil, by simp [startTracing]⟩

namespace Sound

theorem traceWire_eq (pattern : Graph K) (var : Nat) (t : Tracing) (side : Side) (index : Nat)
    (w : Wire) : pattern.traceWire var t (side, index, w) =
      if t.seen.contains w || !isOpId (w.far side).node then t
      else
        match t.nodes.idxOf? (w.far side).node with
        | some other =>
          { t with
            seen := w :: t.seen
            constraints := t.constraints ++ [.link var side index other (w.far side).slot] }
        | none =>
          { nodes := t.nodes ++ [(w.far side).node]
            seen := w :: t.seen
            constraints := t.constraints ++ [.follow var side index (w.far side).slot
              ((pattern.kindOf? (w.far side).node).getD .input)
              (pattern.paramsOf (w.far side).node)] } := by
  cases side <;> rfl

theorem traced_wire (hS : pattern.Sound) (hTr : Traced pattern root t)
    (hM : w ∈ pattern.wires) (hNear : t.nodes[var]? = some (w.near side).node) :
    Traced pattern root (pattern.traceWire var t (side, (w.near side).index, w)) ∧
      t.Extends (pattern.traceWire var t (side, (w.near side).index, w)) ∧
      (isOpId (w.far side).node = true →
        w ∈ (pattern.traceWire var t (side, (w.near side).index, w)).seen) := by
  rw [traceWire_eq]
  split
  · rename_i hSkip
    refine ⟨hTr, .refl t, fun hOp => ?_⟩
    simpa [hOp] using hSkip
  · rename_i hTake
    simp only [Bool.or_eq_true, not_or, Bool.not_eq_true', Bool.not_eq_false, contains_iff_mem] at hTake
    have hVar := lt_of_getElem? hNear
    split
    · rename_i other hFnd
      have hFar : t.nodes[other]? = some (w.far side).node := by
        rcases idxOf?_eq_some_iff.mp hFnd with ⟨hLt, hEq, -⟩
        rw [getElem?_eq_getElem hLt]
        simpa using hEq
      have hTaken := hTr.take hM hTake.1 [] (by simpa using hTr.nodup) (by simp)
        (by simp [Constraint.bound]) (.link hVar (lt_of_getElem? hFar)
          (by simpa using hNear) (by simpa using hFar) (.nil _))
      rw [append_nil] at hTaken
      exact ⟨hTaken, ⟨prefix_refl _, subset_cons_self _ _⟩, fun _ => mem_cons_self⟩
    · rename_i hNone
      have hN : (w.far side).node ∈ pattern.opIds := by
        refine (hS.mem_opIds_iff_isOpId ?_).mpr hTake.2
        cases side
        · exact (hS.edge_mem ⟨w, hM, rfl, rfl⟩).1
        · exact (hS.edge_mem ⟨w, hM, rfl, rfl⟩).2
      have hNew : (w.far side).node ∉ t.nodes := idxOf?_eq_none_iff.mp hNone
      have hTaken := hTr.take hM hTake.1 [(w.far side).node]
        (hTr.nodup.append (nodup_singleton _) (by simpa using hNew))
        (by simpa using hN) (by simp [Constraint.bound])
        (.follow hVar (by rw [getElem?_append_left hVar, hNear]) getElem?_concat_length (.nil _))
      exact ⟨hTaken, ⟨prefix_append _ _, subset_cons_self _ _⟩, fun _ => mem_cons_self⟩

theorem exists_pinWires (hS : pattern.Sound) (hCom : pattern.Complete) (n : Nat) :
    ∃ steps, pattern.pinWires n = .ok steps ∧ ∀ side i w, (side, i, w) ∈ steps ↔
      w ∈ pattern.wires ∧ (w.near side).place = (n, i) := by
  let pinned (i : Nat) : Except Fault (Side × Nat × Wire) :=
    (pattern.wireInto? n i).elim (.error .absent) (fun w => .ok (.input, i, w))
  have hPinned : ∀ {i step}, pinned i = .ok step ↔
      ∃ w ∈ pattern.wires, w.dst.place = (n, i) ∧ step = (.input, i, w) := by
    intro i step
    have hInto := fun w => hS.wireInto?_iff (n := n) (i := i) (w := w)
    simp only [← and_assoc, ← hInto, pinned]
    cases pattern.wireInto? n i <;> simp [eq_comm]
  have hAll : ∀ i ∈ List.range (pattern.signatureOf n).inputs.length, ∃ step, pinned i = .ok step := by
    intro i hI
    rcases hCom.fed (n, i) _ (getElem?_eq_getElem (mem_range.mp hI)) with ⟨src, w, hM, -, hDst⟩
    exact ⟨_, hPinned.mpr ⟨w, hM, hDst, rfl⟩⟩
  rcases exists_mapM_eq_ok hAll with ⟨entering, hEntering⟩
  refine ⟨_, bind_eq_ok_iff.mpr ⟨entering, ?_, rfl⟩, fun side i w => ?_⟩
  · rw [← hEntering]
    refine congrArg (mapM · _) (funext (fun i => ?_))
    cases hInto : pattern.wireInto? n i <;> simp only [pinned, hInto, Option.elim]
  have hL : (side, i, w) ∈ entering ↔ side = .input ∧ w ∈ pattern.wires ∧ w.dst.place = (n, i) := by
    constructor
    · intro hM
      rcases exists_of_mapM_right hEntering hM with ⟨j, -, hStep⟩
      rcases hPinned.mp hStep with ⟨v, hWire, hDst, hEq⟩
      simp only [Prod.mk.injEq] at hEq
      obtain ⟨rfl, rfl, rfl⟩ := hEq
      exact ⟨rfl, hWire, hDst⟩
    · rintro ⟨rfl, hWire, hDst⟩
      rcases hS.typed w hWire with ⟨_, -, hIn⟩
      rw [hDst] at hIn
      rcases exists_of_mapM_left hEntering
        (mem_range.mpr (lt_of_getElem? hIn)) with ⟨step, hStep, hFnd⟩
      rw [hPinned.mpr ⟨w, hWire, hDst, rfl⟩] at hFnd
      exact Except.ok.inj hFnd ▸ hStep
  have hR : (side, i, w) ∈ (List.range (pattern.signatureOf n).outputs.length).flatMap (fun i =>
      ((pattern.wiresFrom n i).mergeSort Wire.before).map (fun w => (Side.output, i, w))) ↔
      side = .output ∧ w ∈ pattern.wires ∧ w.src.place = (n, i) := by
    simp only [mem_flatMap, mem_map, mem_mergeSort, mem_wiresFrom_iff, Prod.mk.injEq]
    constructor
    · rintro ⟨j, -, v, hWire, rfl, rfl, rfl⟩
      exact ⟨rfl, hWire⟩
    · rintro ⟨rfl, hWire, hSrc⟩
      rcases hS.typed w hWire with ⟨_, hOut, -⟩
      rw [hSrc] at hOut
      exact ⟨i, mem_range.mpr (lt_of_getElem? hOut), w, ⟨hWire, hSrc⟩, rfl, rfl, rfl⟩
  rw [mem_append, hL, hR]
  cases side <;> simp [Wire.near]

theorem traced_steps (hS : pattern.Sound) (hTr : Traced pattern root t)
    (hVar : t.nodes[var]? = some n) {steps : List (Side × Nat × Wire)}
    (hSteps : ∀ side i w, (side, i, w) ∈ steps → w ∈ pattern.wires ∧ (w.near side).place = (n, i)) :
    Traced pattern root (steps.foldl (pattern.traceWire var) t) ∧
      t.Extends (steps.foldl (pattern.traceWire var) t) ∧
      ∀ side i w, (side, i, w) ∈ steps → isOpId (w.far side).node = true →
        w ∈ (steps.foldl (pattern.traceWire var) t).seen := by
  induction steps generalizing t with
  | nil => exact ⟨hTr, .refl t, fun _ _ _ hM => by simp at hM⟩
  | cons step rest ih =>
    rcases step with ⟨side, i, w⟩
    rcases hSteps side i w mem_cons_self with ⟨hM, hPlace⟩
    obtain ⟨rfl, rfl⟩ := Prod.mk.inj hPlace
    rcases hS.traced_wire hTr hM hVar with ⟨hFirst, hExtends, hSeen⟩
    rcases ih hFirst (hExtends.getElem? hVar)
      (fun side i v hRest => hSteps side i v (mem_cons_of_mem _ hRest)) with
      ⟨hAll, hExtends', hSeen'⟩
    refine ⟨hAll, hExtends.trans hExtends', fun side' i' v hStep hOp => ?_⟩
    rcases mem_cons.mp hStep with hEq | hRest
    · simp only [Prod.mk.injEq] at hEq
      obtain ⟨rfl, -, rfl⟩ := hEq
      exact hExtends'.seen (hSeen hOp)
    · exact hSeen' side' i' v hRest hOp

def Swept (pattern : Graph K) (t : Tracing) (n : Nat) : Prop :=
  ∀ w ∈ pattern.wires, ∀ side, (w.near side).node = n → isOpId (w.far side).node = true → w ∈ t.seen

theorem traced_variable (hS : pattern.Sound) (hCom : pattern.Complete)
    (hTr : Traced pattern root t) (var : Nat) :
    ∃ t', pattern.traceVariable t var = .ok t' ∧ Traced pattern root t' ∧ t.Extends t' ∧
      (t.nodes[var]? = none → t' = t) ∧ ∀ n, t.nodes[var]? = some n → Swept pattern t' n := by
  unfold traceVariable
  cases hVar : t.nodes[var]? with
  | none => exact ⟨t, rfl, hTr, .refl t, fun _ => rfl, by simp⟩
  | some n =>
    rcases hS.exists_pinWires hCom n with ⟨steps, hSteps, hPins⟩
    rcases hS.traced_steps hTr hVar (fun side i w hM => (hPins side i w).mp hM) with
      ⟨hAll, hExtends, hSeen⟩
    refine ⟨_, bind_eq_ok_iff.mpr ⟨steps, hSteps, rfl⟩, hAll, hExtends, by simp, fun m hSome => ?_⟩
    obtain rfl := Option.some.inj hSome
    rintro w hM side rfl hOp
    exact hSeen side _ w ((hPins side _ w).mpr ⟨hM, rfl⟩) hOp

/- Going through the first variables takes all wires at their nodes. -/
theorem traced_range (hS : pattern.Sound) (hCom : pattern.Complete)
    (hRoot : root ∈ pattern.opIds) (count : Nat) :
    ∃ t, (List.range count).foldlM pattern.traceVariable (pattern.startTracing root) = .ok t ∧
      Traced pattern root t ∧ ∀ var < count, ∀ n, t.nodes[var]? = some n → Swept pattern t n := by
  induction count with
  | zero => exact ⟨_, rfl, traced_start hRoot, fun var hLt => absurd hLt (Nat.not_lt_zero var)⟩
  | succ count ih =>
    rcases ih with ⟨mid, hMid, hTr, hSwept⟩
    rcases hS.traced_variable hCom hTr count with
      ⟨t, hStep, hTr', hExtends, hEnd, hSweeps⟩
    refine ⟨t, ?_, hTr', fun var hLt n hN => ?_⟩
    · rw [range_succ, foldlM_append]
      exact bind_eq_ok_iff.mpr ⟨mid, hMid, bind_eq_ok_iff.mpr ⟨t, hStep, rfl⟩⟩
    -- a node that is bound only now has a later variable
    cases hOld : mid.nodes[var]? with
    | some m =>
      have hSame := hExtends.getElem? hOld
      rw [hN] at hSame
      obtain rfl := Option.some.inj hSame
      rcases Nat.lt_succ_iff_lt_or_eq.mp hLt with hEarlier | rfl
      · intro w hM side hNear hOp
        exact hExtends.seen (hSwept var hEarlier n hOld w hM side hNear hOp)
      · exact hSweeps n hOld
    | none =>
      have hLong := Nat.le_trans (List.getElem?_eq_none_iff.mp hOld) (Nat.lt_succ_iff.mp hLt)
      rw [hEnd (getElem?_eq_none hLong), hOld] at hN
      cases hN

theorem exists_trace (hS : pattern.Sound) (hCom : pattern.Complete) (hRoot : root ∈ pattern.opIds) :
    ∃ t, pattern.trace root = .ok t ∧ Traced pattern root t ∧ ∀ n ∈ t.nodes, Swept pattern t n := by
  rcases hS.traced_range hCom hRoot pattern.ops.length with ⟨t, hTrace, hTr, hSwept⟩
  refine ⟨t, hTrace, hTr, fun n hM => ?_⟩
  rcases getElem?_of_mem hM with ⟨var, hVar⟩
  have hShort := (hTr.nodup.subperm hTr.ops).length_le
  rw [hS.length_opIds] at hShort
  exact hSwept var (Nat.lt_of_lt_of_le (lt_of_getElem? hVar) hShort) n hVar

end Sound

end Graph

namespace Traced

theorem mem_seen_iff (hTr : Traced pattern root t) (hS : pattern.Sound)
    (hSwept : ∀ n ∈ t.nodes, Graph.Sound.Swept pattern t n) :
    w ∈ t.seen ↔ w ∈ pattern.wires ∧ w.src.node ∈ t.nodes ∧ w.dst.node ∈ t.nodes := by
  rcases hTr.tells with ⟨rest, -, -, hTells⟩
  constructor
  · exact fun hM => ⟨hTr.wires w hM, hTells.mem_nodes (mem_reverse.mpr hM)⟩
  · rintro ⟨hM, hSrc, hDst⟩
    exact hSwept _ hDst w hM .input rfl (hS.isOpId_of_mem_opIds (hTr.ops _ hSrc))

theorem satisfies_iff (hTr : Traced pattern root t) {host : Graph K} {f : Nat → Nat} :
    Satisfies host (t.nodes.map f) 1 t.constraints ↔
      (∀ n ∈ t.nodes, pattern.Fits host n (f n)) ∧ (t.nodes.map f).Nodup ∧
        (∀ n ∈ t.nodes.tail, isOpId (f n) = true) ∧
        ∀ w ∈ t.seen, host.Wired (f w.src.node, w.src.index) (f w.dst.node, w.dst.index) := by
  rcases hTr.tells with ⟨rest, hCons, hBound, hTells⟩
  rcases head?_eq_some_iff.mp hTr.first with ⟨later, hNodes⟩
  rw [hCons]
  refine (and_congr_right' (hTells.satisfies_iff hBound (by simp [hNodes]))).trans ?_
  simp only [mem_reverse, hNodes, map_cons, Constraint.Holds, getElem?_cons_zero, Option.some.injEq,
    exists_eq_left', drop_succ_cons, drop_zero, tail_cons, forall_mem_cons, forall_and, Graph.Fits]
  tauto

end Traced

---- Patterns of Graphs ----

/-
  Whether a pattern is that of a graph: its variables stand for
  the operations of the graph, and ids meet its constraints
  exactly if they are the images of the operations under a map
  that keeps kinds, parameters, differences and wires.
-/
structure Pattern.Describes (p : Pattern) (pattern : Graph K) : Prop where
  nodes : p.nodes.Perm pattern.opIds
  root : RootFirst p.constraints
  bound : boundAfter 1 p.constraints = p.nodes.length
  kinds : ∀ c ∈ p.constraints, ∀ kind ∈ c.kind?,
    ∃ n ∈ pattern.opIds, (pattern.kindOf? n).getD .input = kind
  meaning : ∀ (host : Graph K) (f : Nat → Nat),
    Satisfies host (p.nodes.map f) 1 p.constraints ↔
      (∀ n ∈ p.nodes, pattern.Fits host n (f n)) ∧
      (p.nodes.map f).Nodup ∧
      (∀ n ∈ p.nodes.tail, isOpId (f n) = true) ∧
      ∀ w ∈ pattern.wires, isOpId w.src.node = true → isOpId w.dst.node = true →
        host.Wired (f w.src.node, w.src.index) (f w.dst.node, w.dst.index)
  inputs : (List.range pattern.inputs.length).mapM (fun i =>
    (pattern.targets inputId i).mapM (spot p.nodes)) = .ok p.inputs
  outputs : (List.range pattern.outputs.length).mapM (outputSpot pattern p.nodes) = .ok p.outputs
  outArity : p.outArity = p.nodes.map (fun n => (pattern.signatureOf n).outputs.length)

namespace Graph.Sound

theorem describes_ofGraph (hS : pattern.Sound) (hCom : pattern.Complete) {p : Pattern}
    (hPat : Pattern.ofGraph pattern = .ok p) : p.Describes pattern := by
  unfold Pattern.ofGraph at hPat
  rcases bind_eq_ok_iff.mp hPat with ⟨order, hOrder, hB⟩
  rcases order with _ | ⟨root, later⟩
  · simp [throw, throwThe, MonadExceptOf.throw] at hB
  · rcases hS.exists_trace hCom
      ((hS.operationOrder_ok hOrder).1.subset mem_cons_self) with ⟨t, hTrace, hTr, hSwept⟩
    rcases bind_eq_ok_iff.mp hB with ⟨t', hTrace', hRest⟩
    obtain rfl := Except.ok.inj (hTrace.symm.trans hTrace')
    by_cases hLen : t.nodes.length = pattern.ops.length
    · rw [if_neg (by simpa using hLen)] at hRest
      simp only at hRest
      rcases bind_eq_ok_iff.mp hRest with ⟨inputs, hInputs, hRest⟩
      rcases bind_eq_ok_iff.mp hRest with ⟨outputs, hOuts, hEq⟩
      obtain rfl := Except.ok.inj hEq
      have hNodes : t.nodes.Perm pattern.opIds := by
        refine (hTr.nodup.subperm hTr.ops).perm_of_length_le ?_
        rw [hS.length_opIds, hLen]
      rcases hTr.tells with ⟨rest, hCons, hBound, hTells⟩
      refine ⟨hNodes, ?_, ?_, ?_, fun host f => ?_, hInputs, hOuts, rfl⟩
      · exact ⟨_, _, rest, hCons, fun c hM => (hTells.of_mem hM).1⟩
      · rw [hCons]
        exact hBound
      · rw [hCons, forall_mem_cons]
        refine ⟨fun kind hKind => ⟨root, ?_, Option.some.inj hKind⟩, fun c hM kind hKind => ?_⟩
        · exact hTr.ops _ (mem_of_mem_head? hTr.first)
        · rcases (hTells.of_mem hM).2 kind hKind with ⟨n, hN, hSame⟩
          exact ⟨n, hTr.ops n hN, hSame⟩
      · rw [hTr.satisfies_iff]
        refine and_congr_right' (and_congr_right' (and_congr_right' ?_))
        refine forall_congr' (fun w => ?_)
        rw [hTr.mem_seen_iff hS hSwept, hNodes.mem_iff, hNodes.mem_iff, and_imp, and_imp]
        refine imp_congr_right (fun hM => ?_)
        have hEnds := hS.edge_mem ⟨w, hM, rfl, rfl⟩
        rw [hS.mem_opIds_iff_isOpId hEnds.1, hS.mem_opIds_iff_isOpId hEnds.2]
    · rw [if_pos (by simpa using hLen)] at hRest
      simp [throw, throwThe, MonadExceptOf.throw, bind, Except.bind] at hRest

end Graph.Sound

end CircuitGraph
