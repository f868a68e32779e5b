import CircuitGraph.Proofs.Graph.WellFormed
import Mathlib.Logic.Function.Basic

/-
  What a graph computes.

  An interpretation says what every kind of operation does
  with the values at its inputs.
-/

---- Interpretations ----

namespace CircuitGraph

open List

/-
  What operations do with values:
    * `carries`: whether a value can be on a wire of a type,
    * `gate`: what the kinds without a body do,
    * `conditional`: what a condition does, given the boundary
      and the meaning of its body.
  Values of the right types lead to values of the right types,
  and a condition uses its body only on such values.
-/
structure Interpretation (V : Type) where
  carries : WireType → V → Prop
  gate : Kind → List Float → List V → List V
  conditional : Signature → V → (List V → List V) → List V → List V
  gate_typed : ∀ kind sig params xs, kind.signature? = some sig → params.length = kind.arity →
    List.Forall₂ carries sig.inputs xs → List.Forall₂ carries sig.outputs (gate kind params xs)
  conditional_typed : ∀ sig control body xs, carries .bool control →
    (∀ ys, List.Forall₂ carries sig.inputs ys → List.Forall₂ carries sig.outputs (body ys)) →
    List.Forall₂ carries sig.inputs xs →
    List.Forall₂ carries sig.outputs (conditional sig control body xs)
  conditional_congr : ∀ sig control body body' xs,
    (∀ ys, List.Forall₂ carries sig.inputs ys → body ys = body' ys) →
    List.Forall₂ carries sig.inputs xs →
    conditional sig control body xs = conditional sig control body' xs

namespace Interpretation

variable {V : Type}

def Typed (I : Interpretation V) (types : List WireType) (xs : List V) : Prop :=
  List.Forall₂ I.carries types xs

end Interpretation

---- Meanings ----

namespace Node

variable {K V : Type}

def meaning (I : Interpretation V) (node : Node (Graph K)) (body : Option (List V → List V)) :
    List V → List V :=
  match node.kind, node.boundary?, body with
  | .region, _, some f => f
  | .conditional, some sig, some f => fun xs =>
    match xs with
    | [] => []
    | control :: rest => I.conditional sig control f rest
  | kind, _, _ => I.gate kind (Param.values node.params)

end Node

namespace Graph

variable {K V : Type}

def valueAt (env : Nat → List V) (p : Pin) : Option V :=
  (env p.node)[p.index]?

def inputValues (g : Graph K) (env : Nat → List V) (n : Nat) : List V :=
  (List.range (g.signatureOf n).inputs.length).filterMap (fun i =>
    (g.source? n i).bind (valueAt env))

def evaluate (I : Interpretation V) (g : Graph K) (bodies : List (Nat × (List V → List V)))
    (env : Nat → List V) (n : Nat) : Nat → List V :=
  match g.op? n with
  | none => env
  | some node => Function.update env n (node.meaning I (valueOf? bodies n) (g.inputValues env n))

def startValues (xs : List V) (n : Nat) : List V :=
  if n = inputId then xs else []

def levelMeaning (I : Interpretation V) (g : Graph K) (bodies : List (Nat × (List V → List V)))
    (xs : List V) : List V :=
  match g.operationOrder with
  | .ok order => g.inputValues (order.foldl (g.evaluate I bodies) (startValues xs)) outputId
  | .error _ => []

def meaning (I : Interpretation V) (g : Graph K) : List V → List V :=
  g.fold (levelMeaning I)

theorem meaning_eq_level (I : Interpretation V) (g : Graph K) :
    g.meaning I = g.levelMeaning I (g.bodyValues (meaning I)) :=
  fold_eq _ g

/-
  Values for all nodes of a level that are right for given
  inputs: each operation has computed what it has at its
  output pins.
-/
structure Solves (I : Interpretation V) (g : Graph K) (xs : List V) (env : Nat → List V) : Prop where
  inputs : env inputId = xs
  nodes : ∀ node ∈ g.ops,
    env node.id = node.meaning I (node.body.map (Graph.meaning I)) (g.inputValues env node.id)

---- Solutions ----

variable {I : Interpretation V} {g : Graph K}

theorem inputValues_congr {env env' : Nat → List V} {n : Nat}
    (hSame : ∀ p, g.Edge p n → env p = env' p) : g.inputValues env n = g.inputValues env' n := by
  unfold inputValues
  congr 1
  funext i
  cases hSrc : g.source? n i with
  | none => rfl
  | some p =>
    have hEdge : g.Edge p.node n := by
      rcases Option.map_eq_some_iff.mp hSrc with ⟨w, hWire, rfl⟩
      have hTest := find?_some hWire
      simp only [Bool.and_eq_true, beq_iff_eq] at hTest
      exact ⟨w, mem_of_find?_eq_some hWire, rfl, hTest.1⟩
    simp [valueAt, hSame p.node hEdge]

theorem Sound.solves_unique (hS : g.Sound) (hAcy : g.Acyclic) {xs : List V}
    {env env' : Nat → List V} (hL : g.Solves I xs env) (hR : g.Solves I xs env') {n : Nat}
    (hM : n = inputId ∨ n ∈ g.opIds) : env n = env' n := by
  induction n using (hS.wellFounded_edge hAcy).induction with
  | _ n ih =>
    rcases hM with rfl | hOp
    · rw [hL.inputs, hR.inputs]
    · rcases mem_opIds_iff.mp hOp with ⟨node, hN, rfl⟩
      rw [hL.nodes node hN, hR.nodes node hN]
      congr 1
      exact inputValues_congr (fun p hEdge => ih p hEdge (hS.edge_source hEdge))

/- What holds of values while operations are computed in order: those done are right. -/
structure Evaluated (I : Interpretation V) (g : Graph K) (xs : List V) (done : List Nat)
    (env : Nat → List V) : Prop where
  inputs : env inputId = xs
  nodes : ∀ node ∈ g.ops, node.id ∈ done →
    env node.id = node.meaning I (node.body.map (Graph.meaning I)) (g.inputValues env node.id)

/- Computing an operation whose predecessors are done makes it done. -/
theorem Sound.evaluated_step (hS : g.Sound) {xs : List V} {done : List Nat} {env : Nat → List V}
    {n : Nat} (hDone : g.Evaluated I xs done env) (hOp : n ∈ g.opIds) (hNew : n ∉ done)
    (hClosed : ∀ m ∈ n :: done, ∀ p, g.Edge p m → p = inputId ∨ p ∈ done) :
    g.Evaluated I xs (n :: done) (g.evaluate I (g.bodyValues (meaning I)) env n) := by
  rcases mem_opIds_iff.mp hOp with ⟨node, hN, rfl⟩
  have hInput : inputId ≠ node.id := (hS.id_ne hN).1.symm
  simp only [evaluate, hS.op?_id hN, hS.valueOf?_bodies (Graph.meaning I) hN]
  -- The inputs of what is done do not depend on the new values.
  have hKept : ∀ m ∈ node.id :: done, g.inputValues (Function.update env node.id
        (node.meaning I (node.body.map (Graph.meaning I)) (g.inputValues env node.id))) m =
      g.inputValues env m := by
    intro m hM
    refine inputValues_congr (fun p hEdge => Function.update_of_ne ?_ _ _)
    rcases hClosed m hM p hEdge with rfl | hBef
    · exact hInput
    · rintro rfl
      exact hNew hBef
  constructor
  · rw [Function.update_of_ne hInput, hDone.inputs]
  · intro other hOther hM
    rw [hKept other.id hM]
    by_cases hSame : other.id = node.id
    · obtain rfl := eq_of_key_eq hS.unique hOther hN hSame
      rw [Function.update_self]
    · rw [Function.update_of_ne hSame]
      exact hDone.nodes other hOther (mem_of_ne_of_mem hSame hM)

theorem Sound.evaluated_order (hS : g.Sound) (xs : List V) {order : List Nat}
    (hOrder : g.operationOrder = .ok order) : g.Solves I xs
      (order.foldl (g.evaluate I (g.bodyValues (meaning I))) (startValues xs)) := by
  rcases hS.operationOrder_ok hOrder with ⟨hPerm, hOrd⟩
  have hNodup : order.Nodup := hPerm.nodup_iff.mpr (sortIds_nodup _)
  -- The operations done are the first ones of the order.
  have hRun : ∀ before after env, order = before ++ after → g.Evaluated I xs before.reverse env →
      g.Evaluated I xs order (after.foldl (g.evaluate I (g.bodyValues (meaning I))) env) := by
    intro before after
    induction after generalizing before with
    | nil =>
      rintro env hSplit hDone
      refine ⟨hDone.inputs, fun node hN hM => hDone.nodes node hN ?_⟩
      simpa [hSplit] using hM
    | cons n after ih =>
      intro env hSplit hDone
      have hOp : n ∈ g.opIds := hPerm.subset (by simp [hSplit])
      have hNew : n ∉ before.reverse := by
        rw [hSplit, nodup_append] at hNodup
        intro hM
        exact hNodup.2.2 n (mem_reverse.mp hM) n mem_cons_self rfl
      have hClosed : ∀ m ∈ n :: before.reverse, ∀ p, g.Edge p m →
          p = inputId ∨ p ∈ before.reverse := by
        intro m hM p hEdge
        rcases hS.edge_source hEdge with hInput | hPred
        · exact .inl hInput
        · right
          rw [mem_reverse]
          rcases mem_cons.mp hM with rfl | hBef
          · exact hOrd before m after hSplit p ⟨hEdge, hPred⟩
          · rcases append_of_mem (mem_reverse.mp hBef) with ⟨left, right, rfl⟩
            have hL := hOrd left m (right ++ n :: after) (by simp [hSplit]) p ⟨hEdge, hPred⟩
            exact mem_append_left _ hL
      refine ih (before ++ [n]) _ (by simp [hSplit]) ?_
      simpa using hS.evaluated_step hDone hOp hNew hClosed
  have hAll := hRun [] order (startValues xs) rfl
    ⟨by simp [startValues], fun node _ hM => by simp at hM⟩
  refine ⟨hAll.inputs, fun node hN => hAll.nodes node hN ?_⟩
  exact hPerm.symm.subset (mem_opIds_of_mem hN)

theorem Sound.exists_solves (hS : g.Sound) (hAcy : g.Acyclic) (I : Interpretation V)
    (xs : List V) : ∃ env, g.Solves I xs env := by
  rcases hS.exists_operationOrder hAcy with ⟨order, hOrder⟩
  exact ⟨_, hS.evaluated_order xs hOrder⟩

theorem Sound.meaning_eq (hS : g.Sound) (hAcy : g.Acyclic) {xs : List V}
    {env : Nat → List V} (hSol : g.Solves I xs env) :
    g.meaning I xs = g.inputValues env outputId := by
  rcases hS.exists_operationOrder hAcy with ⟨order, hOrder⟩
  rw [meaning_eq_level, levelMeaning, hOrder]
  exact inputValues_congr (fun p hEdge => hS.solves_unique hAcy
    (hS.evaluated_order xs hOrder) hSol (hS.edge_source hEdge))

end Graph

---- Types of Values ----

namespace Node

variable {K V : Type} {node : Node (Graph K)} {I : Interpretation V}

theorem meaning_gate (hGate : node.kind.isContainer = false) (body : Option (List V → List V)) :
    node.meaning I body = I.gate node.kind (Param.values node.params) := by
  unfold meaning
  split <;> simp_all [Kind.isContainer]

end Node

namespace Interpretation

variable {V : Type} {I : Interpretation V}

theorem typed_iff {types : List WireType} {xs : List V} : I.Typed types xs ↔
      xs.length = types.length ∧
      ∀ (i : Nat) (t : WireType), types[i]? = some t → ∃ v, xs[i]? = some v ∧ I.carries t v := by
  rw [Typed, forall₂_iff_get]
  constructor
  · rintro ⟨hLen, hEach⟩
    refine ⟨hLen.symm, fun i t hType => ?_⟩
    rcases List.getElem?_eq_some_iff.mp hType with ⟨hLt, rfl⟩
    exact ⟨xs[i], getElem?_eq_getElem (hLen ▸ hLt), hEach i hLt (hLen ▸ hLt)⟩
  · rintro ⟨hLen, hEach⟩
    refine ⟨hLen.symm, fun i hL hR => ?_⟩
    rcases hEach i types[i] (getElem?_eq_getElem hL) with ⟨v, hValue, hCar⟩
    rw [getElem?_eq_getElem hR] at hValue
    obtain rfl := Option.some.inj hValue
    exact hCar

theorem Typed.getElem? {types : List WireType} {xs : List V} (hTyped : I.Typed types xs) {i : Nat}
    {t : WireType} (hType : types[i]? = some t) : ∃ v, xs[i]? = some v ∧ I.carries t v :=
  (typed_iff.mp hTyped).2 i t hType

end Interpretation

namespace Node

variable {K V : Type} {node : Node (Graph K)} {I : Interpretation V}

theorem Sound.meaning_typed (hS : node.Sound) (hOwned : node.enclosing = none)
    (hB : ∀ body, node.body = some body →
      ∀ ys, I.Typed body.inputs ys → I.Typed body.outputs (body.meaning I ys))
    {xs : List V}
    (hTyped : I.Typed node.signature.inputs xs) :
    I.Typed node.signature.outputs (node.meaning I (node.body.map (Graph.meaning I)) xs) := by
  cases hCont : node.kind.isContainer with
  | false =>
    rcases Kind.exists_signature hS.inner hCont with ⟨sig, hSig⟩
    rw [signature_gate hCont, hSig] at hTyped ⊢
    rw [meaning_gate hCont]
    refine I.gate_typed node.kind sig _ xs hSig ?_ hTyped
    rw [Param.values, length_map, hS.params]
  | true =>
    rcases hS.exists_body hOwned hCont with ⟨body, hSome, hBd⟩
    rcases Kind.container_cases hCont with hKind | hKind
    · simp only [signature, hKind, hBd] at hTyped ⊢
      simp only [meaning, hKind, hSome, Option.map_some]
      exact hB body hSome xs hTyped
    · simp only [signature, hKind, hBd] at hTyped ⊢
      simp only [meaning, hKind, hBd, hSome, Option.map_some]
      cases hTyped with
      | cons hControl hRest =>
        exact I.conditional_typed body.signature _ _ _ hControl (hB body hSome) hRest

end Node

namespace Graph

variable {K V : Type} {I : Interpretation V} {g : Graph K}

theorem Sound.inputValues_typed (hS : g.Sound) (hCom : g.Complete) {env : Nat → List V}
    {n : Nat} (hBef : ∀ p, g.Edge p n → I.Typed (g.signatureOf p).outputs (env p)) :
    I.Typed (g.signatureOf n).inputs (g.inputValues env n) ∧ ∀ i < (g.signatureOf n).inputs.length,
        (g.inputValues env n)[i]? = (g.source? n i).bind (valueAt env) := by
  -- Every input pin has a source, and the source has a value of the type of the pin.
  have hValue : ∀ i t, (g.signatureOf n).inputs[i]? = some t →
      ∃ v, (g.source? n i).bind (valueAt env) = some v ∧ I.carries t v := by
    intro i t hType
    rcases hCom.fed (n, i) t hType with ⟨src, hW⟩
    rcases hS.wired_types hW with ⟨t', hOut, hIn⟩
    obtain rfl : t = t' := by
      have hEq : g.inType? (n, i) = some t := hType
      exact eq_of_some hEq hIn
    rcases hS.wired_iff_source?.mp hW with ⟨p, hSrc, rfl⟩
    rcases (hBef p.node hW.edge).getElem? hOut with ⟨v, hFnd, hCar⟩
    exact ⟨v, by rw [hSrc]; exact hFnd, hCar⟩
  have hSome : ∀ i < (g.signatureOf n).inputs.length,
      ((g.source? n i).bind (valueAt env)).isSome := by
    intro i hLt
    rcases hValue i _ (getElem?_eq_getElem hLt) with ⟨v, hFnd, -⟩
    simp [hFnd]
  refine ⟨Interpretation.typed_iff.mpr ⟨length_filterMap_range hSome, ?_⟩, ?_⟩
  · intro i t hType
    rcases hValue i t hType with ⟨v, hFnd, hCar⟩
    refine ⟨v, ?_, hCar⟩
    rw [inputValues, getElem?_filterMap_range hSome (lt_of_getElem? hType), hFnd]
  · intro i hLt
    exact getElem?_filterMap_range hSome hLt

section

variable {xs : List V} {env : Nat → List V} (hS : g.Sound) (hF : g.WellFormed)
  (hBodies : ∀ node ∈ g.ops, ∀ body, node.body = some body →
    ∀ ys, I.Typed body.inputs ys → I.Typed body.outputs (body.meaning I ys))
  (hTyped : I.Typed g.inputs xs) (hSol : g.Solves I xs env)

include hS hF hBodies hTyped hSol

theorem Sound.solves_typed {n : Nat} (hM : n = inputId ∨ n ∈ g.opIds) :
    I.Typed (g.signatureOf n).outputs (env n) := by
  induction n using (hS.wellFounded_edge hF.acyclic).induction with
  | _ n ih =>
    rcases hM with rfl | hOp
    · rw [signatureOf_inputId, hSol.inputs]
      exact hTyped
    · rcases mem_opIds_iff.mp hOp with ⟨node, hN, rfl⟩
      have hBef : ∀ p, g.Edge p node.id → I.Typed (g.signatureOf p).outputs (env p) :=
        fun p hEdge => ih p hEdge (hS.edge_source hEdge)
      have hInputs := (hS.inputValues_typed hF.complete hBef).1
      rw [hS.signatureOf_id hN] at hInputs ⊢
      rw [hSol.nodes node hN]
      exact (hS.nodes node hN).meaning_typed (hF.owned hN) (hBodies node hN) hInputs

theorem Sound.solves_inputValues (n : Nat) :
    I.Typed (g.signatureOf n).inputs (g.inputValues env n) ∧ ∀ i < (g.signatureOf n).inputs.length,
        (g.inputValues env n)[i]? = (g.source? n i).bind (valueAt env) := by
  exact hS.inputValues_typed hF.complete (fun p hEdge =>
    hS.solves_typed hF hBodies hTyped hSol (hS.edge_source hEdge))

end

theorem Intact.meaning_typed (hI : g.Intact) (hF : g.WellFormed) {xs : List V}
    (hTyped : I.Typed g.inputs xs) : I.Typed g.outputs (g.meaning I xs) := by
  induction g using nested_induction generalizing xs with
  | step g ih =>
    have hS := hI.sound
    rcases hS.exists_solves hF.acyclic I xs with ⟨env, hSol⟩
    rw [hS.meaning_eq hF.acyclic hSol]
    have hOuts := hS.solves_inputValues hF (fun node hN body hB ys hYs =>
        ih node hN body hB (hI.body hN hB) (hF.body hN hB) hYs)
      hTyped hSol outputId
    simpa using hOuts.1

theorem Intact.solves_values (hI : g.Intact) (hF : g.WellFormed) {xs : List V}
    {env : Nat → List V} (hTyped : I.Typed g.inputs xs) (hSol : g.Solves I xs env) (n : Nat) :
    I.Typed (g.signatureOf n).inputs (g.inputValues env n) ∧ ∀ i < (g.signatureOf n).inputs.length,
        (g.inputValues env n)[i]? = (g.source? n i).bind (valueAt env) :=
  hI.sound.solves_inputValues hF (fun _ hN _ hB _ hYs =>
      (hI.body hN hB).meaning_typed (hF.body hN hB) hYs)
    hTyped hSol n

theorem Sound.bind_valueAt (hS : g.Sound) {a : Nat × Nat} {n i : Nat}
    (hW : g.Wired a (n, i)) (env : Nat → List V) :
    (g.source? n i).bind (valueAt env) = (env a.1)[a.2]? := by
  rcases hS.wired_iff_source?.mp hW with ⟨p, hSrc, rfl⟩
  rw [hSrc]
  rfl

theorem inputValues_ext {h : Graph K} {env env' : Nat → List V} {n m : Nat}
    (hPins : (g.signatureOf n).inputs = (h.signatureOf m).inputs)
    (hEach : ∀ i < (h.signatureOf m).inputs.length,
      (g.source? n i).bind (valueAt env) = (h.source? m i).bind (valueAt env')) :
    g.inputValues env n = h.inputValues env' m := by
  unfold inputValues
  rw [hPins]
  exact filterMap_congr (fun i hM => hEach i (mem_range.mp hM))

end Graph

end CircuitGraph
