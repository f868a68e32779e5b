import CircuitGraph.Proofs.Emission.Timing

/-
  Lines that carry values.

  Each pin of a node lies on a line: those of qubits and bits
  on lines of their own, and a control value on the bit that
  it was read from.
-/

---- Lines of Pins ----

namespace CircuitGraph

open List

namespace Line

def Fits (qubits : Nat) : WireType → Line → Prop
  | .qubit, plain n => n < qubits
  | .bit, plain n => qubits ≤ n
  | .bool, control n => qubits ≤ n
  | _, _ => False

variable {qubits : Nat} {l : Line} {t t' : WireType}

theorem Fits.bit_iff : Fits qubits .bit l ↔ ∃ n, l = plain n ∧ qubits ≤ n := by
  cases l <;> simp [Fits]

theorem Fits.bool_iff : Fits qubits .bool l ↔ ∃ n, l = control n ∧ qubits ≤ n := by
  cases l <;> simp [Fits]

theorem Fits.unique (hL : Fits qubits t l) (hR : Fits qubits t' l) : t = t' := by
  cases t <;> cases t' <;> cases l <;> simp only [Fits] at hL hR <;> first | rfl | omega

theorem Fits.ne_bool {n : Nat} (hFits : Fits qubits t (plain n)) : t ≠ .bool := by
  rintro rfl
  exact hFits

end Line

def readLines {V : Type} (s : Nat → V) (lines : List Line) : List V :=
  lines.map (fun l => s l.number)

/- Lines that fit types, no two of them the same but for control values. -/
structure Carried (qubits : Nat) (types : List WireType) (lines : List Line) : Prop where
  fits : List.Forall₂ (Line.Fits qubits) types lines
  distinct : ∀ i j n : Nat, lines[i]? = some (Line.plain n) → lines[j]? = some (Line.plain n) → i = j

namespace Carried

variable {qubits : Nat} {types : List WireType} {lines : List Line}

theorem eq_plain (hCarr : Carried qubits types lines) (hLin : WireType.bool ∉ types)
    {l : Line} (hM : l ∈ lines) : l = .plain l.number := by
  have hFits := hCarr.fits
  clear hCarr
  induction hFits with
  | nil => simp at hM
  | @cons t head types tail hHead _ ih =>
    rw [mem_cons, not_or] at hLin
    rcases mem_cons.mp hM with rfl | hTail
    · cases l with
      | plain n => rfl
      | control n =>
        cases t with
        | qubit => exact hHead.elim
        | bit => exact hHead.elim
        | bool => exact (hLin.1 rfl).elim
    · exact ih hLin.2 hTail

theorem nodup_numbers (hCarr : Carried qubits types lines) (hLin : WireType.bool ∉ types) :
    (lines.map Line.number).Nodup := by
  rw [nodup_iff_getElem?_ne_getElem?]
  intro i j hLess hBound hSame
  rw [length_map] at hBound
  have hL : lines[i]? = some lines[i] := getElem?_eq_getElem (hLess.trans hBound)
  have hR : lines[j]? = some lines[j] := getElem?_eq_getElem hBound
  rw [getElem?_map, getElem?_map, hL, hR, Option.map_some, Option.map_some,
    Option.some_inj] at hSame
  rw [hCarr.eq_plain hLin (mem_of_getElem? hL), hSame] at hL
  rw [hCarr.eq_plain hLin (mem_of_getElem? hR)] at hR
  exact hLess.ne (hCarr.distinct i j _ hL hR)

theorem tail {t : WireType} {l : Line} (hCarr : Carried qubits (t :: types) (l :: lines)) :
    Carried qubits types lines := by
  cases hCarr.fits with
  | cons _ hFits =>
    refine ⟨hFits, fun i j n hL hR => ?_⟩
    have hSame := hCarr.distinct (i + 1) (j + 1) n
    rw [getElem?_cons_succ, getElem?_cons_succ] at hSame
    exact Nat.succ.inj (hSame hL hR)

end Carried

---- Computed Values ----

/-
  Operations compute a function from lines to lines: they act
  on the first ones only, the second ones are among these, and
  what is on them in the end are the values of the function.
-/
structure Computes {V : Type} {qubits : Nat} (E : Execution V qubits) (lines : List Line)
    (f : List V → List V) (types : List WireType) (ops : List Operation) (outs : List Line) :
    Prop where
  carried : Carried qubits types outs
  within : ∀ n, Line.plain n ∈ outs → Line.plain n ∈ lines
  touches : ∀ op ∈ ops, ∀ n ∈ op.lines qubits, Line.plain n ∈ lines
  values : ∀ s, f (readLines s lines) = readLines (E.run ops s) outs

variable {qubits : Nat} {lines : List Line}

theorem Computes.single {V : Type} {E : Execution V qubits} {f : List V → List V}
    {types : List WireType} {op : Operation} (hCarr : Carried qubits types lines)
    (hLin : WireType.bool ∉ types) (hLines : op.lines qubits = lines.map Line.number)
    (hRun : ∀ s, E.run [op] s = put s (op.lines qubits) (f ((op.lines qubits).map s)))
    (hLen : ∀ xs, xs.length = types.length → (f xs).length = types.length) :
    Computes E lines f types [op] lines := by
  refine ⟨hCarr, fun n hM => hM, ?_, ?_⟩
  · intro other hOther n hM
    rw [mem_singleton] at hOther
    rw [hOther, hLines, mem_map] at hM
    rcases hM with ⟨l, hLine, rfl⟩
    exact hCarr.eq_plain hLin hLine ▸ hLine
  · intro s
    have hRead : ∀ s : Nat → V, readLines s lines = (op.lines qubits).map s := by
      intro s
      rw [hLines, map_map]
      rfl
    have hCount : types.length = (op.lines qubits).length := by
      rw [hLines, length_map, hCarr.fits.length_eq]
    rw [hRead, hRead, hRun, map_put (hLines ▸ hCarr.nodup_numbers hLin)]
    rw [hLen _ (by rw [length_map, hCount]), hCount]

theorem Computes.read (hCarr : Carried qubits [.bit] lines) :
    ∃ l, lines = [l] ∧ Computes (.classical qubits) lines (Interpretation.classicalGate .readBit)
      [.bit, .bool] [] [l, .control l.number] := by
  rcases lines with _ | ⟨l, lines⟩
  · cases hCarr.fits
  · cases hCarr.fits with
    | cons hFits hNil =>
      cases hNil
      rcases Line.Fits.bit_iff.mp hFits with ⟨n, rfl, hBit⟩
      refine ⟨.plain n, rfl, ⟨?_, ?_⟩, ?_, by simp, fun s => rfl⟩
      · exact .cons hFits (.cons hBit .nil)
      · have hFirst : ∀ i m, [Line.plain n, Line.control n][i]? = some (Line.plain m) → i = 0 := by
          intro i m hLine
          rcases i with _ | _ | i
          · rfl
          · cases hLine
          · cases hLine
        intro i j m hL hR
        rw [hFirst i m hL, hFirst j m hR]
      · intro m hM
        rcases mem_cons.mp hM with hHere | hControl
        · exact hHere ▸ mem_cons_self
        · cases mem_singleton.mp hControl

theorem Computes.conditional {types types' : List WireType} {c : Nat} {f f' : List Bool → List Bool}
    {ops : List Operation} (hControl : qubits ≤ c) (hCarr : Carried qubits types lines)
    (hB : Computes (.classical qubits) lines f types' ops lines)
    (hPlain : ∀ op ∈ ops, op.condition = none)
    (hNot : ∀ op ∈ ops.dropLast, c ∉ op.lines qubits)
    (hGiven : ∀ control rest, f' (control :: rest) =
      Interpretation.classicalConditional ⟨types, types'⟩ control f rest) :
    Computes (.classical qubits) (.control c :: lines) f' types'
      (ops.map (Operation.under (.number (c - qubits)))) lines := by
  have hBit : qubits + (c - qubits) = c := Nat.add_sub_cancel' hControl
  refine ⟨hB.carried, fun n hM => mem_cons_of_mem _ hM, ?_, ?_⟩
  · intro op hOp n hM
    rcases mem_map.mp hOp with ⟨bare, hBare, rfl⟩
    exact mem_cons_of_mem _ (hB.touches bare hBare n hM)
  · intro s
    have hRead : readLines s (.control c :: lines) = s c :: readLines s lines := rfl
    rw [hRead, hGiven, Interpretation.classicalConditional]
    change _ = readLines (Operation.runAll qubits _ s) lines
    cases hSet : s c with
    | true =>
      rw [Operation.runAll_under_set (hBit.symm ▸ hSet) hPlain (hBit.symm ▸ hNot), if_pos rfl,
        hB.values]
    | false =>
      -- The lines fit the types on both sides, so that these are the same.
      have hTypes : types = types' :=
        left_unique_forall₂' (R := Line.Fits qubits) (fun _ _ _ => Line.Fits.unique)
          hCarr.fits hB.carried.fits
      rw [Operation.runAll_under_unset (hBit.symm ▸ hSet), if_neg Bool.false_ne_true, if_pos hTypes]

---- Nodes ----

theorem Kind.isGate_signature {kind : Kind} (hGate : kind.isGate = true) :
    ∃ types, kind.signature? = some ⟨types, types⟩ ∧ WireType.bool ∉ types := by
  cases kind <;> first
    | exact absurd hGate Bool.false_ne_true
    | exact ⟨_, rfl, by decide⟩

theorem Line.filterMap_index (lines : List Line) :
    (lines.map Line.index).filterMap Index.toNat? = lines.map Line.number := by
  rw [filterMap_map]
  exact congrFun filterMap_eq_map lines

namespace Node

variable {K : Type} {node : Node (Graph K)} {outs : List Line}
variable {emitted : List Operation}

theorem emitNode_gate (hGate : node.kind.isGate = true)
    (hCarr : Carried qubits node.signature.inputs lines) {body : Option Emission}
    (hEmit : Graph.emitNode qubits node body none lines = .ok (emitted, outs)) :
    ∃ op : Operation, emitted = [op] ∧ outs = lines ∧ op.kind = node.kind ∧ op.condition = none ∧
      op.lines qubits = lines.map Line.number := by
  unfold Graph.emitNode at hEmit
  split at hEmit
  · next hKind => simp [hKind, Kind.isGate] at hGate
  · next hKind => simp [hKind, Kind.isGate] at hGate
  · next hKind => simp [hKind, Kind.isGate] at hGate
  · next q c tail hKind =>
    cases hEmit
    refine ⟨_, rfl, rfl, hKind.symm, rfl, ?_⟩
    -- The bit of a measurement lies after the qubits.
    have hTypes : node.signature.inputs = [.qubit, .bit] := by
      rw [signature_gate (by rw [hKind]; rfl), hKind]
      rfl
    rw [hTypes] at hCarr
    cases hCarr.fits with
    | cons hQubit hRest =>
      cases hRest with
      | cons hBit hNil =>
        cases hNil
        rcases Line.Fits.bit_iff.mp hBit with ⟨n, rfl, hAfter⟩
        have hPlace : qubits + (n - qubits) = n := Nat.add_sub_cancel' hAfter
        exact congrArg (fun k => [q.number, k]) hPlace
  · next hMeasure =>
    cases hEmit
    refine ⟨_, rfl, rfl, rfl, rfl, ?_⟩
    rw [Operation.lines, Line.filterMap_index]
    exact append_nil _

def BodyComputes (qubits : Nat) (node : Node (Graph K)) : Prop :=
  ∀ body, node.body = some body → ∀ lines ops outs,
    Carried qubits body.inputs lines → body.timely qubits lines = true →
    body.linearize qubits lines none = .ok (ops, outs) →
    Computes (.classical qubits) lines (body.meaning .classical) body.outputs ops outs

variable (hB : node.BodyComputes qubits)
  (hCarr : Carried qubits node.signature.inputs lines)
  (hTimely : Graph.timelyNode qubits node (node.body.map (Graph.timely qubits)) lines = true)
  (hEmit : Graph.emitNode qubits node (node.body.map (Graph.linearize qubits)) none lines =
    .ok (emitted, outs))

include hB hCarr hTimely hEmit

theorem computes_conditional (hKind : node.kind = .conditional) {body : Graph K}
    (hSome : node.body = some body) : Computes (.classical qubits) lines
      (node.meaning .classical (node.body.map (Graph.meaning .classical)))
      node.signature.outputs emitted outs := by
  have hBd : node.boundary? = some body.signature := by
    rw [boundary?, hSome]
  simp only [signature, hKind, hBd] at hCarr ⊢
  rcases lines with _ | ⟨l, rest⟩
  · cases hCarr.fits
  have hFits : Line.Fits qubits .bool l := by
    cases hCarr.fits with
    | cons hHead _ => exact hHead
  rcases Line.Fits.bool_iff.mp hFits with ⟨c, rfl, hControl⟩
  simp only [Graph.timelyNode, hKind, hSome, Option.map_some, Bool.and_eq_true] at hTimely
  simp only [Graph.emitNode, hKind, hSome, Option.map_some] at hEmit
  rcases Graph.linearize_uniform body _ _ _ _ hEmit with ⟨plain, hBare, rfl, hPlain⟩
  rcases (Graph.returnsLines_iff hBare).mp hTimely.2 with ⟨rfl, hNot⟩
  have hIns := hB body hSome outs plain outs hCarr.tail hTimely.1 hBare
  apply Computes.conditional hControl hCarr.tail hIns hPlain hNot
  intro control rest
  simp only [meaning, hKind, hBd, hSome, Option.map_some]
  rfl

theorem Sound.computes (hS : node.Sound) (hOwned : node.enclosing = none) :
    Computes (.classical qubits) lines
      (node.meaning .classical (node.body.map (Graph.meaning .classical)))
      node.signature.outputs emitted outs := by
  cases hCont : node.kind.isContainer with
  | false =>
    rw [meaning_gate hCont]
    cases hGate : node.kind.isGate with
    | true =>
      rcases Kind.isGate_signature hGate with ⟨types, hTypes, hLin⟩
      rcases emitNode_gate hGate hCarr hEmit with ⟨op, rfl, rfl, hKind, hPlain, hLines⟩
      rw [signature_gate hCont, hTypes] at hCarr ⊢
      refine .single hCarr hLin hLines (fun s => ?_) (fun xs _ => ?_)
      · rw [← hKind]
        exact Operation.execute_of_condition_none hPlain qubits s
      · exact Interpretation.length_classicalGate hTypes xs
    | false =>
      -- The only operation left is the reading of a bit.
      have hKind : node.kind = .readBit := by
        have hIn := hS.inner
        revert hCont hGate hIn
        cases node.kind <;> simp [Kind.isContainer, Kind.isGate, Kind.isBoundary]
      rw [signature_gate hCont, hKind] at hCarr ⊢
      rcases Computes.read hCarr with ⟨l, rfl, hRead⟩
      simp only [Graph.emitNode, hKind] at hEmit
      cases hEmit
      exact hRead
  | true =>
    rcases hS.exists_body hOwned hCont with ⟨body, hSome, hBd⟩
    rcases Kind.container_cases hCont with hKind | hKind
    · simp only [signature, hKind, hBd] at hCarr ⊢
      simp only [Graph.timelyNode, hKind, hSome, Option.map_some] at hTimely
      simp only [Graph.emitNode, hKind, hSome, Option.map_some] at hEmit
      simp only [meaning, hKind, hSome, Option.map_some]
      exact hB body hSome lines emitted outs hCarr hTimely hEmit
    · exact computes_conditional hB hCarr hTimely hEmit hKind hSome

end Node

end CircuitGraph

