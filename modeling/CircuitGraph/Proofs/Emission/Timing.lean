import CircuitGraph.Proofs.Emission.Stepping

/-
  Timely emission.

  A control value is taken from its bit when the operations
  under it run, and not when the bit is read.
-/

---- Lines Left Alone ----

namespace CircuitGraph

variable {ops : List Operation} {lines : List Line}

namespace Operation

def avoid (qubits : Nat) (ops : List Operation) (n : Nat) : Bool :=
  ops.all (fun op => !(op.lines qubits).contains n)

theorem avoid_iff {qubits n : Nat} :
    avoid qubits ops n = true ↔ ∀ op ∈ ops, n ∉ op.lines qubits := by
  simp [avoid]

end Operation

---- Timeliness ----

namespace Graph

variable {K : Type}

/-
  Whether operations leave the bits alone whose control values
  wait for one of the given nodes or for the outputs.
-/
def sparesControls (qubits : Nat) (g : Graph K) (m : LineMap) (rest : List Nat)
    (ops : List Operation) : Bool :=
  g.wires.all (fun w =>
    !(outputId :: rest).contains w.dst.node ||
      match m.find w.src.place with
      | .ok (.control c) => Operation.avoid qubits ops c
      | _ => true)

/- Whether a body brings its lines back and leaves the bit of its condition alone. -/
def returnsLines (qubits : Nat) (body : Graph K) (control : Line) (lines : List Line) : Bool :=
  match body.linearize qubits lines none with
  | .ok (ops, outs) => outs == lines && Operation.avoid qubits ops.dropLast control.number
  | .error _ => true

def timelyNode (qubits : Nat) (node : Node (Graph K)) (timely : Option (List Line → Bool))
    (lines : List Line) : Bool :=
  match node.kind, lines, node.body, timely with
  | .region, lines, some _, some timely => timely lines
  | .conditional, control :: rest, some body, some timely =>
    timely rest && body.returnsLines qubits control rest
  | _, _, _, _ => true

def timelyFrom (qubits : Nat) (g : Graph K) (bodies : List (Nat × (List Line → Bool))) :
    List Nat → LineMap → Bool
  | [], _ => true
  | n :: rest, m =>
    match g.op? n with
    | none => g.timelyFrom qubits bodies rest m
    | some node =>
      match (List.range node.signature.inputs.length).mapM (g.lineInto m n) with
      | .error _ => true
      | .ok lines =>
        match emitNode qubits node (node.body.map (linearize qubits)) none lines with
        | .error _ => true
        | .ok (emitted, outs) =>
          g.sparesControls qubits m rest emitted
            && timelyNode qubits node (valueOf? bodies n) lines
            && g.timelyFrom qubits bodies rest (m.record n outs)

def timelyLevel (qubits : Nat) (g : Graph K) (bodies : List (Nat × (List Line → Bool)))
    (lines : List Line) : Bool :=
  match g.operationOrder with
  | .ok order => g.timelyFrom qubits bodies order (LineMap.record [] inputId lines)
  | .error _ => true

/-
  Whether a graph on the given lines is emitted in time: no bit
  is written while a control value that was read from it is
  waited for, and bodies under conditions bring their lines
  back.
-/
def timely (qubits : Nat) (g : Graph K) : List Line → Bool :=
  g.fold (timelyLevel qubits)

variable {g : Graph K} {qubits : Nat}

theorem sparesControls_iff {m : LineMap} {rest : List Nat} :
    g.sparesControls qubits m rest ops = true ↔
      ∀ src dst c, g.Wired src dst → dst.1 ∈ outputId :: rest → m.find src = .ok (.control c) →
        ∀ op ∈ ops, c ∉ op.lines qubits := by
  rw [sparesControls, List.all_eq_true]
  constructor
  · rintro hAll src dst c ⟨w, hWire, rfl, rfl⟩ hWaits hFnd
    have hHere := hAll w hWire
    rw [hFnd, Bool.or_eq_true, Bool.not_eq_true', ← Bool.not_eq_true, List.contains_iff_mem] at hHere
    exact Operation.avoid_iff.mp (hHere.resolve_left (not_not_intro hWaits))
  · intro hEach w hWire
    rw [Bool.or_eq_true, Bool.not_eq_true', ← Bool.not_eq_true, List.contains_iff_mem]
    by_cases hWaits : w.dst.node ∈ outputId :: rest
    · refine .inr ?_
      split
      · next c hFnd =>
        exact Operation.avoid_iff.mpr (hEach _ _ c ⟨w, hWire, rfl, rfl⟩ hWaits hFnd)
      · rfl
    · exact .inl hWaits

theorem returnsLines_iff {body : Graph K} {control : Line} {outs : List Line}
    (hEmit : body.linearize qubits lines none = .ok (ops, outs)) :
    body.returnsLines qubits control lines = true ↔
      outs = lines ∧ ∀ op ∈ ops.dropLast, control.number ∉ op.lines qubits := by
  rw [returnsLines, hEmit, Bool.and_eq_true, beq_iff_eq, Operation.avoid_iff]

theorem timely_eq (qubits : Nat) (g : Graph K) : g.timely qubits =
      g.timelyLevel qubits (g.bodyValues (timely qubits)) :=
  fold_eq _ g

theorem timely_iff {order : List Nat} (hOrder : g.operationOrder = .ok order) :
    g.timely qubits lines = true ↔ g.timelyFrom qubits (g.bodyValues (timely qubits)) order
        (LineMap.record [] inputId lines) = true := by
  rw [timely_eq, timelyLevel, hOrder]

theorem Sound.timelyFrom_cons_iff (hS : g.Sound) {node : Node (Graph K)}
    (hN : node ∈ g.ops) {m : LineMap} {rest : List Nat} {outs : List Line}
    {emitted : List Operation}
    (hLines : (List.range node.signature.inputs.length).mapM (g.lineInto m node.id) = .ok lines)
    (hEmit : emitNode qubits node (node.body.map (linearize qubits)) none lines =
      .ok (emitted, outs)) :
    g.timelyFrom qubits (g.bodyValues (timely qubits)) (node.id :: rest) m = true ↔
      g.sparesControls qubits m rest emitted = true ∧
        timelyNode qubits node (node.body.map (timely qubits)) lines = true ∧
        g.timelyFrom qubits (g.bodyValues (timely qubits)) rest (m.record node.id outs) = true := by
  rw [timelyFrom, hS.op?_id hN]
  simp only [hLines, hEmit, hS.valueOf?_bodies (timely qubits) hN, Bool.and_eq_true, and_assoc]

end Graph

end CircuitGraph
