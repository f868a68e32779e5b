import CircuitGraph.Proofs.Emission.Carrying

/-
  The values on the lines of a graph as it is emitted.

  When some operations of a level are emitted, the values that
  are waited for lie on the lines that are recorded for them:
  qubits and bits on lines that nothing else is on, and
  control values on bits that nothing has written since.
-/

---- Values That Are Waited For ----

namespace CircuitGraph

open List

variable {n : Nat} {src : Nat × Nat} {into : List Line}

namespace Graph

variable {K : Type}

/-
  Whether an output place is there when the given nodes are
  still to be emitted, and one of them, or the outputs of the
  graph, waits for what it carries.
-/
def Waits (g : Graph K) (rest : List Nat) (src : Nat × Nat) : Prop :=
  src.1 ∉ rest ∧ ∃ dst, g.Wired src dst ∧ dst.1 ∈ outputId :: rest

/- Whether a node is still to come, and every node before it was emitted. -/
structure Due (g : Graph K) (rest : List Nat) (n : Nat) : Prop where
  coming : n ∈ outputId :: rest
  ready : ∀ p, g.Edge p n → p ∉ rest

/-
  What holds of the lines that are recorded and of the
  operations that are emitted, when the given nodes are still
  to come.
-/
structure Tracks {V : Type} {qubits : Nat} (E : Execution V qubits) (I : Interpretation V)
    (g : Graph K) (lines : List Line) (rest : List Nat) (m : LineMap) (ops : List Operation) :
    Prop where
  found : ∀ src t, g.Waits rest src → g.outType? src = some t →
    ∃ l, m.find src = .ok l ∧ Line.Fits qubits t l
  within : ∀ src n, g.Waits rest src → m.find src = .ok (.plain n) → .plain n ∈ lines
  apart : ∀ src src' n, g.Waits rest src → g.Waits rest src' →
    m.find src = .ok (.plain n) → m.find src' = .ok (.plain n) → src = src'
  touches : ∀ op ∈ ops, ∀ n ∈ op.lines qubits, .plain n ∈ lines
  values : ∀ s env src l, g.Solves I (readLines s lines) env → g.Waits rest src →
    m.find src = .ok l → (env src.1)[src.2]? = some (E.run ops s l.number)

variable {V : Type} {qubits : Nat} {E : Execution V qubits} {I : Interpretation V} {g : Graph K}
variable {lines : List Line} {rest : List Nat} {m : LineMap} {ops : List Operation}

theorem Due.waits {i : Nat} (hDue : g.Due rest n) (hW : g.Wired src (n, i)) : g.Waits rest src :=
  ⟨hDue.ready src.1 hW.edge, (n, i), hW, hDue.coming⟩

theorem Sound.not_waits (hS : g.Sound) {i : Nat} {t : WireType} (hW : g.Wired src (n, i))
    (hType : g.outType? src = some t) (hLin : t ≠ .bool) (hGone : n ∉ outputId :: rest) :
    ¬ g.Waits rest src := by
  rintro ⟨-, dst, hDst, hComing⟩
  have hNotBool : g.outType? src ≠ some .bool := by
    rw [hType]
    exact fun hSame => hLin (Option.some.inj hSame)
  have hSame : dst = (n, i) := hS.target_unique hDst hW hNotBool
  rw [hSame] at hComing
  exact hGone hComing

theorem Sound.lineInto_eq_ok_iff (hS : g.Sound) {i : Nat} {l : Line} :
    g.lineInto m n i = .ok l ↔ ∃ src, g.Wired src (n, i) ∧ m.find src = .ok l := by
  constructor
  · intro hLine
    unfold lineInto at hLine
    split at hLine
    · cases hLine
    · next p hSrc =>
      exact ⟨p.place, hS.wired_iff_source?.mpr ⟨p, hSrc, rfl⟩, hLine⟩
  · rintro ⟨src, hW, hFnd⟩
    rcases hS.wired_iff_source?.mp hW with ⟨p, hSrc, rfl⟩
    rw [lineInto, hSrc]
    exact hFnd

theorem Sound.wired_of_into (hS : g.Sound) {k : Nat}
    (hInto : (List.range k).mapM (g.lineInto m n) = .ok into) : into.length = k ∧
      ∀ i l, into[i]? = some l → ∃ src, g.Wired src (n, i) ∧ m.find src = .ok l := by
  rcases forall₂_iff_get.mp (mapM_eq_ok_iff.mp hInto) with ⟨hLen, hEach⟩
  rw [length_range] at hLen
  refine ⟨hLen.symm, fun i l hLine => ?_⟩
  rcases List.getElem?_eq_some_iff.mp hLine with ⟨hBound, rfl⟩
  have hHere := hEach i (by rw [length_range, hLen]; exact hBound) hBound
  rw [get_eq_getElem, getElem_range] at hHere
  exact hS.lineInto_eq_ok_iff.mp hHere

namespace Tracks

section

variable (hTracks : g.Tracks E I lines rest m ops) (hS : g.Sound) (hDue : g.Due rest n)
  (hInto : (List.range (g.signatureOf n).inputs.length).mapM (g.lineInto m n) = .ok into)

include hTracks hS hDue hInto

/- The lines that enter a node when all nodes before it were emitted. -/
theorem carried_into : Carried qubits (g.signatureOf n).inputs into := by
  rcases hS.wired_of_into hInto with ⟨hLen, hEach⟩
  have hWaits : ∀ src i, g.Wired src (n, i) → g.Waits rest src :=
    fun src i hW => hDue.waits hW
  -- What enters a pin fits the type of the pin.
  have hFits : ∀ (i : Nat) t l, (g.signatureOf n).inputs[i]? = some t → into[i]? = some l →
      Line.Fits qubits t l := by
    intro i t l hType hLine
    rcases hEach i l hLine with ⟨src, hW, hFnd⟩
    rcases hS.wired_types hW with ⟨t', hOut, hIn⟩
    obtain rfl : t' = t := eq_of_some hIn hType
    rcases hTracks.found src t' (hWaits src i hW) hOut with ⟨l', hFnd', hFits⟩
    cases hFnd.symm.trans hFnd'
    exact hFits
  refine ⟨forall₂_iff_get.mpr ⟨hLen.symm, fun i hL hR => ?_⟩, ?_⟩
  · exact hFits i _ _ (getElem?_eq_getElem hL) (getElem?_eq_getElem hR)
  · intro i j k hL hR
    rcases hEach i _ hL with ⟨src, hW, hFnd⟩
    rcases hEach j _ hR with ⟨src', hW', hFnd'⟩
    have hSame : src = src' :=
      hTracks.apart src src' k (hWaits src i hW) (hWaits src' j hW') hFnd hFnd'
    subst hSame
    -- A qubit or a bit is wired to one pin only.
    rcases hS.wired_types hW with ⟨t, hOut, -⟩
    rcases hTracks.found src t (hWaits src i hW) hOut with ⟨l, hFnd'', hFits⟩
    cases hFnd.symm.trans hFnd''
    have hLin : g.outType? src ≠ some .bool := by
      rw [hOut]
      exact fun hBool => hFits.ne_bool (Option.some.inj hBool)
    exact (Prod.mk.inj (hS.target_unique hW hW' hLin)).2

theorem within_into {k : Nat} (hM : .plain k ∈ into) : .plain k ∈ lines := by
  rcases mem_iff_getElem?.mp hM with ⟨i, hLine⟩
  rcases (hS.wired_of_into hInto).2 i _ hLine with ⟨src, hW, hFnd⟩
  exact hTracks.within src k (hDue.waits hW) hFnd

end

theorem values_into (hTracks : g.Tracks E I lines rest m ops) (hI : g.Intact)
    (hF : g.WellFormed) (hFree : ∀ t v, I.carries t v)
    (hCarr : Carried qubits g.inputs lines) (hDue : g.Due rest n)
    (hInto : (List.range (g.signatureOf n).inputs.length).mapM (g.lineInto m n) = .ok into)
    {s : Nat → V} {env : Nat → List V} (hSol : g.Solves I (readLines s lines) env) :
    g.inputValues env n = readLines (E.run ops s) into := by
  have hS := hI.sound
  rcases hS.wired_of_into hInto with ⟨hLen, hEach⟩
  have hTyped : I.Typed g.inputs (readLines s lines) := by
    refine forall₂_iff_get.mpr ⟨?_, fun _ _ _ => hFree _ _⟩
    rw [readLines, length_map, hCarr.fits.length_eq]
  rcases hI.solves_values hF hTyped hSol n with ⟨hValues, hEntries⟩
  have hCount : (g.inputValues env n).length = into.length := by
    rw [hLen, ← hValues.length_eq]
  apply ext_getElem?
  intro i
  rw [readLines, getElem?_map]
  cases hLine : into[i]? with
  | none =>
    rw [List.getElem?_eq_none_iff, ← hCount] at hLine
    rw [Option.map_none, getElem?_eq_none hLine]
  | some l =>
    have hBound : i < (g.signatureOf n).inputs.length :=
      hLen ▸ (lt_of_getElem? hLine)
    rcases hEach i l hLine with ⟨src, hW, hFnd⟩
    rw [hEntries i hBound, hS.bind_valueAt hW, hTracks.values s env src l hSol (hDue.waits hW) hFnd]
    rfl

end Tracks

---- Emission of a Level ----

/- Before anything is emitted, what is waited for enters the graph. -/
theorem Sound.tracks_start (hS : g.Sound) (hCarr : Carried qubits g.inputs lines)
    {order : List Nat} (hOrder : order.Perm g.opIds) :
    g.Tracks E I lines order (LineMap.record [] inputId lines) [] := by
  have hInput : ∀ src, g.Waits order src → src.1 = inputId := by
    rintro src ⟨hDone, dst, hW, -⟩
    exact (hS.edge_source hW.edge).resolve_right (fun hOp => hDone (hOrder.mem_iff.mpr hOp))
  have hFind : ∀ i l, LineMap.find (LineMap.record [] inputId lines) (inputId, i) = .ok l ↔
      lines[i]? = some l := by
    intro i l
    refine ⟨fun hFnd => LineMap.getElem?_of_find_record (fun l' hOld => ?_) hFnd,
      LineMap.find_record_self⟩
    cases hOld
  have hPlace : ∀ src l, g.Waits order src →
      LineMap.find (LineMap.record [] inputId lines) src = .ok l → lines[src.2]? = some l := by
    rintro ⟨n, i⟩ l hWaits hFnd
    obtain rfl : n = inputId := hInput _ hWaits
    exact (hFind i l).mp hFnd
  refine ⟨?_, ?_, ?_, by simp, ?_⟩
  · rintro ⟨n, i⟩ t hWaits hType
    obtain rfl : n = inputId := hInput _ hWaits
    rw [outType?, signatureOf_inputId] at hType
    rcases List.getElem?_eq_some_iff.mp hType with ⟨hBound, rfl⟩
    rcases forall₂_iff_get.mp hCarr.fits with ⟨hLen, hEach⟩
    have hLine : lines[i]? = some lines[i] := getElem?_eq_getElem (hLen ▸ hBound)
    exact ⟨_, (hFind i _).mpr hLine, hEach i hBound (hLen ▸ hBound)⟩
  · intro src n hWaits hFnd
    exact mem_of_getElem? (hPlace src _ hWaits hFnd)
  · intro src src' n hWaits hWaits' hFnd hFnd'
    apply Prod.ext
    · rw [hInput src hWaits, hInput src' hWaits']
    · exact hCarr.distinct _ _ n (hPlace src _ hWaits hFnd) (hPlace src' _ hWaits' hFnd')
  · intro s env src l hSol hWaits hFnd
    rw [hInput src hWaits, hSol.inputs, readLines, getElem?_map, hPlace src l hWaits hFnd, E.nil]
    rfl

theorem Waits.cons (hWaits : g.Waits rest src) (hOther : src.1 ≠ n) : g.Waits (n :: rest) src := by
  rcases hWaits with ⟨hDone, dst, hW, hComing⟩
  refine ⟨?_, dst, hW, ?_⟩
  · rw [mem_cons, not_or]
    exact ⟨hOther, hDone⟩
  · rcases mem_cons.mp hComing with hOutp | hRest
    · exact hOutp ▸ mem_cons_self
    · exact mem_cons_of_mem _ (mem_cons_of_mem _ hRest)

namespace Tracks

variable {outs : List Line} {emitted : List Operation}

section

variable (hTracks : g.Tracks E I lines (n :: rest) m ops) (hS : g.Sound)
  (hDue : g.Due (n :: rest) n) (hGone : n ∉ outputId :: rest)
  (hInto : (List.range (g.signatureOf n).inputs.length).mapM (g.lineInto m n) = .ok into)

include hTracks hS hDue hGone hInto

theorem not_mem_into (hWaits : g.Waits rest src) (hOther : src.1 ≠ n) {k : Nat}
    (hFnd : m.find src = .ok (.plain k)) : .plain k ∉ into := by
  intro hM
  rcases mem_iff_getElem?.mp hM with ⟨i, hLine⟩
  rcases (hS.wired_of_into hInto).2 i _ hLine with ⟨src', hW, hFnd'⟩
  have hSame : src = src' :=
    hTracks.apart src src' k (hWaits.cons hOther) (hDue.waits hW) hFnd hFnd'
  subst hSame
  rcases hS.wired_types hW with ⟨t, hOut, -⟩
  rcases hTracks.found src t (hDue.waits hW) hOut with ⟨l, hFnd'', hFits⟩
  cases hFnd.symm.trans hFnd''
  exact hS.not_waits hW hOut hFits.ne_bool hGone hWaits

theorem untouched (hTouches : ∀ op ∈ emitted, ∀ k ∈ op.lines qubits, .plain k ∈ into)
    (hSpares : g.sparesControls qubits m rest emitted = true) (hWaits : g.Waits rest src)
    (hOther : src.1 ≠ n) {l : Line} (hFnd : m.find src = .ok l) (s : Nat → V) :
    E.run emitted s l.number = s l.number := by
  refine E.untouched ?_ s
  cases l with
  | plain k =>
    intro op hOp hM
    exact hTracks.not_mem_into hS hDue hGone hInto hWaits hOther hFnd (hTouches op hOp k hM)
  | control c =>
    rcases hWaits with ⟨-, dst, hW, hComing⟩
    exact sparesControls_iff.mp hSpares src dst c hW hComing hFnd

end

/- An operation that computes what its node means keeps track of the values. -/
theorem step {node : Node (Graph K)} (hTracks : g.Tracks E I lines (node.id :: rest) m ops)
    (hS : g.Sound) (hN : node ∈ g.ops) (hDue : g.Due (node.id :: rest) node.id)
    (hGone : node.id ∉ outputId :: rest)
    (hInto : (List.range (g.signatureOf node.id).inputs.length).mapM (g.lineInto m node.id) =
      .ok into)
    (hWithin : ∀ k, .plain k ∈ into → .plain k ∈ lines)
    (hValues : ∀ s env, g.Solves I (readLines s lines) env →
      g.inputValues env node.id = readLines (E.run ops s) into)
    (hComputes : Computes E into (node.meaning I (node.body.map (Graph.meaning I)))
      node.signature.outputs emitted outs)
    (hSpares : g.sparesControls qubits m rest emitted = true) :
    g.Tracks E I lines rest (m.record node.id outs) (ops ++ emitted) := by
  -- The places of the node itself lie on the lines that were given for it.
  have hHere : ∀ i t, g.outType? (node.id, i) = some t →
      ∃ l, outs[i]? = some l ∧ Line.Fits qubits t l ∧
        (m.record node.id outs).find (node.id, i) = .ok l := by
    intro i t hType
    rw [outType?, hS.signatureOf_id hN] at hType
    rcases List.getElem?_eq_some_iff.mp hType with ⟨hBound, rfl⟩
    rcases forall₂_iff_get.mp hComputes.carried.fits with ⟨hLen, hEach⟩
    have hLine : outs[i]? = some outs[i] := getElem?_eq_getElem (hLen ▸ hBound)
    exact ⟨_, hLine, hEach i hBound (hLen ▸ hBound), LineMap.find_record_self hLine⟩
  have hLine : ∀ src l, g.Waits rest src → src.1 = node.id →
      (m.record node.id outs).find src = .ok l → outs[src.2]? = some l := by
    rintro ⟨k, i⟩ l ⟨-, dst, hW, -⟩ rfl hFnd
    rcases hS.wired_types hW with ⟨t, hOut, -⟩
    rcases hHere i t hOut with ⟨l', hLine, -, hFnd'⟩
    cases hFnd.symm.trans hFnd'
    exact hLine
  have hOld : ∀ src, src.1 ≠ node.id → (m.record node.id outs).find src = m.find src :=
    fun src hOther => LineMap.find_record_of_ne hOther
  have hPlain : ∀ src k, g.Waits rest src → src.1 = node.id →
      (m.record node.id outs).find src = .ok (.plain k) → .plain k ∈ into := by
    intro src k hWaits hSelf hFnd
    exact hComputes.within k (mem_of_getElem? (hLine src _ hWaits hSelf hFnd))
  refine ⟨?_, ?_, ?_, ?_, ?_⟩
  · intro src t hWaits hType
    by_cases hSelf : src.1 = node.id
    · obtain ⟨k, i⟩ := src
      subst hSelf
      rcases hHere i t hType with ⟨l, -, hFits, hFnd⟩
      exact ⟨l, hFnd, hFits⟩
    · rw [hOld src hSelf]
      exact hTracks.found src t (hWaits.cons hSelf) hType
  · intro src k hWaits hFnd
    by_cases hSelf : src.1 = node.id
    · exact hWithin k (hPlain src k hWaits hSelf hFnd)
    · rw [hOld src hSelf] at hFnd
      exact hTracks.within src k (hWaits.cons hSelf) hFnd
  · intro src src' k hWaits hWaits' hFnd hFnd'
    by_cases hSelf : src.1 = node.id
    · by_cases hSelf' : src'.1 = node.id
      · apply Prod.ext (hSelf.trans hSelf'.symm)
        exact hComputes.carried.distinct _ _ k (hLine src _ hWaits hSelf hFnd)
          (hLine src' _ hWaits' hSelf' hFnd')
      · rw [hOld src' hSelf'] at hFnd'
        exact (hTracks.not_mem_into hS hDue hGone hInto hWaits' hSelf' hFnd'
          (hPlain src k hWaits hSelf hFnd)).elim
    · rw [hOld src hSelf] at hFnd
      by_cases hSelf' : src'.1 = node.id
      · exact (hTracks.not_mem_into hS hDue hGone hInto hWaits hSelf hFnd
          (hPlain src' k hWaits' hSelf' hFnd')).elim
      · rw [hOld src' hSelf'] at hFnd'
        exact hTracks.apart src src' k (hWaits.cons hSelf) (hWaits'.cons hSelf') hFnd hFnd'
  · intro op hOp k hM
    rcases mem_append.mp hOp with hBef | hEmit
    · exact hTracks.touches op hBef k hM
    · exact hWithin k (hComputes.touches op hEmit k hM)
  · intro s env src l hSol hWaits hFnd
    rw [E.append]
    by_cases hSelf : src.1 = node.id
    · rw [hSelf, hSol.nodes node hN, hValues s env hSol, hComputes.values, readLines,
        getElem?_map, hLine src l hWaits hSelf hFnd]
      rfl
    · rw [hOld src hSelf] at hFnd
      rw [hTracks.untouched hS hDue hGone hInto hComputes.touches hSpares hWaits hSelf hFnd]
      exact hTracks.values s env src l hSol (hWaits.cons hSelf) hFnd

end Tracks

def InOrder (g : Graph K) (rest : List Nat) : Prop :=
  ∀ before n after, rest = before ++ n :: after → ∀ p, g.Edge p n → p ∉ n :: after

theorem InOrder.tail (hOrder : g.InOrder (n :: rest)) : g.InOrder rest := by
  rintro before k after rfl p hEdge
  exact hOrder (n :: before) k after rfl p hEdge

theorem Sound.inOrder (hS : g.Sound) {order : List Nat}
    (hOrder : g.operationOrder = .ok order) : g.InOrder order ∧ order.Nodup := by
  rcases hS.operationOrder_ok hOrder with ⟨hPerm, hOrd⟩
  have hNodup : order.Nodup := by
    have hNodes := hS.nodeIds_nodup
    rw [nodeIds, nodup_cons, nodup_cons] at hNodes
    exact hPerm.nodup_iff.mpr hNodes.2.2
  refine ⟨?_, hNodup⟩
  intro before n after hSplit p hEdge hLater
  have hOp : p ∈ g.opIds := hPerm.mem_iff.mp (hSplit ▸ mem_append_right before hLater)
  have hBef : p ∈ before := hOrd before n after hSplit p ⟨hEdge, hOp⟩
  rw [hSplit, nodup_append] at hNodup
  exact hNodup.2.2 p hBef p hLater rfl

/-
  Whether every operation of a level that is emitted under a
  condition on what comes before computes what it means, and
  the condition holds of what comes after.
-/
def Advances (E : Execution V qubits) (I : Interpretation V) (g : Graph K)
    (P : List Nat → LineMap → List Operation → Prop) : Prop :=
  ∀ node ∈ g.ops, ∀ rest m ops into, P (node.id :: rest) m ops →
    (List.range node.signature.inputs.length).mapM (g.lineInto m node.id) = .ok into →
    Carried qubits node.signature.inputs into →
    ∃ emitted outs, emitNode qubits node (node.body.map (linearize qubits)) none into =
        .ok (emitted, outs) ∧
      Computes E into (node.meaning I (node.body.map (Graph.meaning I))) node.signature.outputs
        emitted outs ∧
      g.sparesControls qubits m rest emitted = true ∧ P rest (m.record node.id outs) (ops ++ emitted)

/- The lines into a node are there once all nodes before it were emitted. -/
theorem Tracks.exists_into (hTracks : g.Tracks E I lines rest m ops) (hS : g.Sound)
    (hCom : g.Complete) (hDue : g.Due rest n) :
    ∃ into, (List.range (g.signatureOf n).inputs.length).mapM (g.lineInto m n) = .ok into := by
  refine exists_mapM_eq_ok (fun i hM => ?_)
  have hIn := getElem?_eq_getElem (mem_range.mp hM)
  rcases hCom.fed (n, i) _ hIn with ⟨src, hW⟩
  rcases hS.wired_types hW with ⟨t, hOut, -⟩
  rcases hTracks.found src t (hDue.waits hW) hOut with ⟨l, hFnd, -⟩
  exact ⟨l, hS.lineInto_eq_ok_iff.mpr ⟨src, hW, hFnd⟩⟩

variable {P : List Nat → LineMap → List Operation → Prop}

section

variable (hI : g.Intact) (hF : g.WellFormed) (hFree : ∀ t v, I.carries t v)
  (hAdvances : Advances E I g P) (hCarr : Carried qubits g.inputs lines)

include hI hF hFree hAdvances hCarr

/- Along the operations of a level the values are kept track of. -/
theorem Intact.tracks_run (hOps : ∀ n ∈ rest, n ∈ g.opIds) (hNodup : rest.Nodup)
    (hOrder : g.InOrder rest) (hTracks : g.Tracks E I lines rest m ops) (hStart : P rest m ops) :
    ∃ m' ops', rest.foldlM (g.emitStep qubits none) (m, ops) = .ok (m', ops') ∧
      g.Tracks E I lines [] m' ops' ∧ P [] m' ops' := by
  have hS := hI.sound
  induction rest generalizing m ops with
  | nil => exact ⟨m, ops, rfl, hTracks, hStart⟩
  | cons n rest ih =>
    rw [nodup_cons] at hNodup
    rcases mem_opIds_iff.mp (hOps n mem_cons_self) with ⟨node, hN, rfl⟩
    have hDue : g.Due (node.id :: rest) node.id :=
      ⟨mem_cons_of_mem _ mem_cons_self, hOrder [] node.id rest rfl⟩
    have hGone : node.id ∉ outputId :: rest := by
      rw [mem_cons, not_or]
      exact ⟨(hS.id_ne hN).2, hNodup.1⟩
    rcases hTracks.exists_into hS hF.complete hDue with ⟨into, hInto⟩
    have hInputs : Carried qubits node.signature.inputs into :=
      hS.signatureOf_id hN ▸ hTracks.carried_into hS hDue hInto
    have hInto' := hInto
    rw [hS.signatureOf_id hN] at hInto'
    rcases hAdvances node hN rest m ops into hStart hInto' hInputs with
      ⟨emitted, outs, hEmit, hComputes, hSpares, hLater⟩
    have hNext := hTracks.step hS hN hDue hGone hInto
      (fun k hM => hTracks.within_into hS hDue hInto hM)
      (fun s env hSol => hTracks.values_into hI hF hFree hCarr hDue hInto hSol)
      hComputes hSpares
    have hStep : g.emitStep qubits none (m, ops) node.id =
        .ok (m.record node.id outs, ops ++ emitted) :=
      (hS.emitStep_eq_ok_iff hN (hF.owned hN)).mpr ⟨into, emitted, outs, hInto', hEmit, rfl⟩
    rw [foldlM_cons, hStep]
    exact ih (fun k hM => hOps k (mem_cons_of_mem _ hM)) hNodup.2 hOrder.tail hNext hLater

/- A graph whose operations all compute what they mean does so as a whole. -/
theorem Intact.linearize_of_advances (hStart : ∀ order, g.operationOrder = .ok order →
      P order (LineMap.record [] inputId lines) []) :
    ∃ m ops outs, g.linearize qubits lines none = .ok (ops, outs) ∧ P [] m ops ∧
      (List.range g.outputs.length).mapM (g.lineInto m outputId) = .ok outs ∧
      Computes E lines (g.meaning I) g.outputs ops outs := by
  have hS := hI.sound
  rcases hS.exists_operationOrder hF.acyclic with ⟨order, hOrder⟩
  have hPerm := (hS.operationOrder_ok hOrder).1
  rcases hS.inOrder hOrder with ⟨hInOrder, hNodup⟩
  rcases hI.tracks_run hF hFree hAdvances hCarr (fun n => hPerm.mem_iff.mp) hNodup
    hInOrder (hS.tracks_start hCarr hPerm) (hStart order hOrder) with
    ⟨m, ops, hRun, hTracks, hEnd⟩
  have hDue : g.Due [] outputId := ⟨mem_cons_self, fun p _ => not_mem_nil⟩
  rcases hTracks.exists_into hS hF.complete hDue with ⟨outs, hInto⟩
  have hOuts := hInto
  have hOutputs := hTracks.carried_into hS hDue hInto
  rw [signatureOf_outputId] at hOutputs hOuts
  refine ⟨m, ops, outs, linearize_eq_ok_iff.mpr ⟨order, m, hOrder, hRun, hOuts⟩, hEnd, hOuts,
    hOutputs, fun n => hTracks.within_into hS hDue hInto, hTracks.touches, fun s => ?_⟩
  rcases hS.exists_solves hF.acyclic I (readLines s lines) with ⟨env, hSol⟩
  rw [hS.meaning_eq hF.acyclic hSol, hTracks.values_into hI hF hFree hCarr hDue hInto hSol]

end

theorem Intact.linearize_computes (hI : g.Intact) (hF : g.WellFormed) {outs : List Line}
    (hCarr : Carried qubits g.inputs lines) (hTimely : g.timely qubits lines = true)
    (hEmit : g.linearize qubits lines none = .ok (ops, outs)) :
    Computes (.classical qubits) lines (g.meaning .classical) g.outputs ops outs := by
  induction g using nested_induction generalizing lines ops outs with
  | step g ih =>
    have hS := hI.sound
    have hBodies : ∀ node ∈ g.ops, node.BodyComputes qubits := by
      intro node hN body hB lines ops outs hCarr hTimely hEmit
      exact ih node hN body hB (hI.body hN hB) (hF.body hN hB) hCarr hTimely hEmit
    -- What is still to come is emitted in time, and without a fault.
    have hAdvances : Advances (.classical qubits) .classical g (fun rest m ops =>
        g.timelyFrom qubits (g.bodyValues (timely qubits)) rest m = true ∧
        ∃ last, rest.foldlM (g.emitStep qubits none) (m, ops) = .ok last) := by
      rintro node hN rest m ops into ⟨hTimely, last, hRun⟩ hInto hInputs
      rw [foldlM_cons] at hRun
      rcases bind_eq_ok_iff.mp hRun with ⟨state, hStep, hRest⟩
      rcases (hS.emitStep_eq_ok_iff hN (hF.owned hN)).mp hStep with
        ⟨lines, emitted, outs, hLines, hEmit, rfl⟩
      cases hInto.symm.trans hLines
      rcases (hS.timelyFrom_cons_iff hN hInto hEmit).mp hTimely with
        ⟨hSpares, hIns, hLater⟩
      exact ⟨emitted, outs, hEmit, (hS.nodes node hN).computes
        (hBodies node hN) hInputs hIns hEmit (hF.owned hN), hSpares, hLater, last, hRest⟩
    rcases linearize_eq_ok_iff.mp hEmit with ⟨order, m, hOrder, hRun, -⟩
    rcases hI.linearize_of_advances hF (fun _ _ => trivial) hAdvances hCarr (by
      intro order' hOrder'
      cases hOrder.symm.trans hOrder'
      exact ⟨(timely_iff hOrder).mp hTimely, _, hRun⟩) with
      ⟨_, ops', outs', hAgain, -, -, hComputes⟩
    cases hEmit.symm.trans hAgain
    exact hComputes

end Graph

end CircuitGraph
