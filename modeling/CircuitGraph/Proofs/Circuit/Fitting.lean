import CircuitGraph.Circuit.Building
import CircuitGraph.Graph.OfCircuit
import CircuitGraph.Graph.ToCircuit
import CircuitGraph.Proofs.Graph.Sound
import CircuitGraph.Proofs.Running

/-
  Operations that fit the sizes of a circuit.

  An operation fits if it is a gate with the qubits and the
  parameters that it needs, and all of its lines are there.
-/

---- Operations ----

namespace CircuitGraph

open List

def Index.plain : Index → Index
  | line slot => .number slot.toNat
  | decimal x => .decimal x

namespace Operation

def plain (op : Operation) : Operation :=
  { op with
    qubits := op.qubits.map Index.plain
    bit := op.bit.map Index.plain
    condition := op.condition.map Index.plain }

def touched (qubits : Nat) (op : Operation) : List Nat :=
  op.qubits.filterMap Index.toNat? ++
    (op.bit.bind Index.toNat?).toList.map (fun c => qubits + c)

/-
  An operation of a circuit with the given numbers of qubits
  and bits: a gate on as many different qubits as it takes.
  Only a measurement names a bit.
-/
structure Fits (qubits bits : Nat) (op : Operation) : Prop where
  gate : op.kind.isGate = true
  params : op.params.length = op.kind.arity
  qubits : ∃ slots : List Slot, op.qubits = slots.map Index.line ∧ slots.length = op.kind.qubits ∧
    (slots.map Slot.toNat).Nodup ∧ ∀ s ∈ slots, s.toNat < qubits
  measured : op.kind = .measure → ∃ s : Slot, op.bit = some (.line s) ∧ s.toNat < bits
  unmeasured : op.kind ≠ .measure → op.bit = none
  conditional : ∀ c, op.condition = some c → ∃ s : Slot, c = .line s ∧ s.toNat < bits

end Operation

---- Kinds and Lines ----

theorem Kind.inner_of_isGate {kind : Kind} (hGate : kind.isGate = true) :
    kind.isBoundary = false ∧ kind.isContainer = false := by
  cases kind <;> first | exact ⟨rfl, rfl⟩ | exact absurd hGate Bool.false_ne_true

theorem Kind.signature?_of_isGate {kind : Kind} (hGate : kind.isGate = true)
    (hNot : kind ≠ .measure) : kind.signature? =
      some ⟨List.replicate kind.qubits .qubit, List.replicate kind.qubits .qubit⟩ := by
  cases kind <;> first | rfl | exact absurd rfl hNot | exact absurd hGate Bool.false_ne_true

namespace Graph

variable {n m : Nat}

theorem length_lineTypes (n m : Nat) : (lineTypes n m).length = n + m := by
  simp [lineTypes]

theorem getElem?_lineTypes_qubit {line : Nat} (hLt : line < n) :
    (lineTypes n m)[line]? = some .qubit := by
  rw [lineTypes, getElem?_append_left (by simpa using hLt)]
  simp [hLt]

theorem getElem?_lineTypes_bit {c : Nat} (hLt : c < m) : (lineTypes n m)[n + c]? = some .bit := by
  rw [lineTypes, getElem?_append_right (by simp)]
  simp [hLt]

end Graph

theorem Graph.emitNode_of_isGate {K : Type} {node : Node (Graph K)}
    (hGate : node.kind.isGate = true) (hNot : node.kind ≠ .measure) (qubits : Nat)
    (body : Option Emission) (condition : Option Index) (lines : List Line) :
    emitNode qubits node body condition lines =
      .ok ([⟨node.kind, lines.map Line.index, node.params, none, condition⟩], lines) := by
  rcases node with ⟨id, kind, params, inner, enclosing⟩
  cases kind <;> first
    | rfl
    | exact absurd rfl hNot
    | exact absurd hGate Bool.false_ne_true

---- Lines of an Operation ----

namespace Operation.Fits

variable {n m : Nat} {op : Operation}

section

variable (hFits : op.Fits n m)

include hFits

theorem cases_kind :
    (∃ q c : Slot, op.kind = .measure ∧ op.qubits = [.line q] ∧ op.bit = some (.line c) ∧
      q.toNat < n ∧ c.toNat < m ∧ op.touched n = [q.toNat, n + c.toNat]) ∨
    ∃ slots : List Slot, op.kind ≠ .measure ∧ op.qubits = slots.map Index.line ∧ op.bit = none ∧
      slots.length = op.kind.qubits ∧ (slots.map Slot.toNat).Nodup ∧
      (∀ s ∈ slots, s.toNat < n) ∧ op.touched n = slots.map Slot.toNat := by
  rcases hFits.qubits with ⟨slots, hQubits, hCount, hNodup, hBelow⟩
  by_cases hKind : op.kind = .measure
  · rcases hFits.measured hKind with ⟨c, hBit, hLt⟩
    rw [hKind] at hCount
    obtain ⟨q, rfl⟩ := length_eq_one_iff.mp hCount
    refine .inl ⟨q, c, hKind, hQubits, hBit, hBelow q mem_cons_self, hLt, ?_⟩
    simp [touched, hQubits, hBit, Index.toNat?]
  · have hBit := hFits.unmeasured hKind
    refine .inr ⟨slots, hKind, hQubits, hBit, hCount, hNodup, hBelow, ?_⟩
    simp only [touched, hQubits, hBit, filterMap_map]
    simp [Function.comp_def, Index.toNat?]

theorem touched_lt : ∀ line ∈ op.touched n, line < n + m := by
  rcases hFits.cases_kind with ⟨q, c, -, -, -, hQ, hC, hLines⟩ |
    ⟨slots, -, -, -, -, -, hBelow, hLines⟩
  · rw [hLines]
    intro line hM
    simp only [mem_cons, not_mem_nil, or_false] at hM
    omega
  · rw [hLines]
    intro line hM
    rcases mem_map.mp hM with ⟨s, hSlot, rfl⟩
    exact Nat.lt_add_right m (hBelow s hSlot)

theorem touched_nodup : (op.touched n).Nodup := by
  rcases hFits.cases_kind with ⟨q, c, -, -, -, hQ, hC, hLines⟩ |
    ⟨slots, -, -, -, -, hNodup, -, hLines⟩
  · rw [hLines]
    simp
    omega
  · rw [hLines]
    exact hNodup

theorem exists_signature : ∃ ts, op.kind.signature? = some ⟨ts, ts⟩ ∧
      ts.map some = (op.touched n).map (fun line => (Graph.lineTypes n m)[line]?) := by
  rcases hFits.cases_kind with ⟨q, c, hKind, -, -, hQ, hC, hLines⟩ |
    ⟨slots, hKind, -, -, hCount, -, hBelow, hLines⟩
  · refine ⟨[.qubit, .bit], by rw [hKind]; rfl, ?_⟩
    rw [hLines]
    simp only [map_cons, map_nil, Graph.getElem?_lineTypes_qubit hQ,
      Graph.getElem?_lineTypes_bit hC]
  · refine ⟨_, Kind.signature?_of_isGate hFits.gate hKind, ?_⟩
    rw [hLines, map_map, ← hCount, map_replicate]
    refine (eq_replicate_iff.mpr ⟨by simp, ?_⟩).symm
    intro t hM
    rcases mem_map.mp hM with ⟨s, hSlot, rfl⟩
    exact Graph.getElem?_lineTypes_qubit (hBelow s hSlot)

theorem node_sound {K : Type} (id : Nat) :
    Node.Sound (⟨id, op.kind, op.params, none, none⟩ : Node (Graph K)) := by
  rcases Kind.inner_of_isGate hFits.gate with ⟨hIn, hB⟩
  exact ⟨hIn, hFits.params, hB, .inl rfl⟩

theorem linesOf_eq :
    Graph.linesOf n op = .ok ((op.touched n).map (fun line : Nat => some (line : Int))) := by
  rcases hFits.cases_kind with ⟨q, c, hKind, hQubits, hBit, -, -, hLines⟩ |
    ⟨slots, hKind, hQubits, hBit, -, -, -, hLines⟩
  · simp [Graph.linesOf, hKind, hBit, hQubits, hLines, Graph.lineOf?, Index.toNat?]
  · simp [Graph.linesOf, hKind, hQubits, hLines, Graph.lineOf?, Index.toNat?]

theorem emitNode_eq {K : Type} (id : Nat) (condition : Option Index) :
    Graph.emitNode n (⟨id, op.kind, op.params, none, none⟩ : Node (Graph K)) none condition
      ((op.touched n).map Line.plain) =
      .ok ([{ op.plain with condition := condition }], (op.touched n).map Line.plain) := by
  rcases hFits.cases_kind with ⟨q, c, hKind, hQubits, hBit, -, -, hLines⟩ |
    ⟨slots, hKind, hQubits, hBit, -, -, -, hLines⟩
  · rw [hLines]
    simp [Graph.emitNode, hKind, plain, hQubits, hBit, Index.plain, Line.index, Line.number]
  · rw [hLines, Graph.emitNode_of_isGate hFits.gate hKind]
    simp [plain, hQubits, hBit, Function.comp_def, Index.plain, Line.index, Line.number]

end

end Operation.Fits

---- Whole Numbers ----

namespace Value

variable {v w : Value} {i j : Int}

theorem cases_of_position? (hWhole : v.position? = some i) :
    v = .whole i ∨ ∃ b, v = .truth b ∧ i = (b.toNat : Int) := by
  cases v with
  | whole k => exact .inl (congrArg Value.whole (Option.some.inj hWhole))
  | truth b => exact .inr ⟨b, rfl, (Option.some.inj hWhole).symm⟩
  | _ => cases hWhole

theorem less_of_position? (hL : v.position? = some i) (hR : w.position? = some j) :
    v.less w = decide (i < j) := by
  rcases cases_of_position? hL with rfl | ⟨b, rfl, rfl⟩ <;>
    rcases cases_of_position? hR with rfl | ⟨c, rfl, rfl⟩ <;>
    simp [less, quotient?]

theorem agrees_of_position? (hL : v.position? = some i) (hR : w.position? = some j) :
    v.agrees w = decide (i = j) := by
  have hLess := less_of_position? hL hR
  have hMore := less_of_position? hR hL
  have hAgrees : v.agrees w = (!v.less w && !w.less v) := by
    rcases cases_of_position? hL with rfl | ⟨b, rfl, -⟩ <;>
      rcases cases_of_position? hR with rfl | ⟨c, rfl, -⟩ <;>
      simp [agrees, isComparable, isUndefined, precedes, isNumeric]
  rw [hAgrees, hLess, hMore, Bool.eq_iff_iff]
  simp
  omega

end Value

---- Indices of Callers ----

namespace Builder

theorem exists_slot_of_indexBelow {count v : Value} {n : Nat}
    (hCount : count.position? = some (n : Int)) (hWhole : v.position?.isSome = true)
    {fault : ArgumentFault} {i : Index} (hIndex : indexBelow count v fault = .ok i) :
    ∃ s : Slot, i = .line s ∧ s.toValue.position? = some (s.toNat : Int) ∧ s.toNat < n := by
  rcases Option.isSome_iff_exists.mp hWhole with ⟨k, hPosition⟩
  have hZero := Value.less_of_position? hPosition (w := .whole 0) rfl
  have hBelow := Value.less_of_position? hPosition hCount
  unfold indexBelow at hIndex
  split at hIndex
  · cases hIndex
  split at hIndex
  · cases hIndex
  rename_i hNonneg
  split at hIndex
  · cases hIndex
  split at hIndex
  · cases hIndex
  rename_i hLess
  simp only [hZero, Bool.or_eq_true, decide_eq_true_eq, not_or, Int.not_lt] at hNonneg
  simp only [hBelow, Bool.not_eq_true', decide_eq_false_iff_not, not_not] at hLess
  rcases Value.cases_of_position? hPosition with rfl | ⟨b, rfl, rfl⟩
  · cases hIndex
    refine ⟨.number k.toNat, rfl, rfl, ?_⟩
    change k.toNat < n
    omega
  · cases hIndex
    exact ⟨.truth b, rfl, rfl, Int.ofNat_lt.mp hLess⟩

theorem exists_slots_of_mapM {b : Builder} {n : Nat}
    (hCount : b.circuit.qubits.position? = some (n : Int)) {qubits : List Value}
    (hWhole : ∀ q ∈ qubits, q.position?.isSome = true) {qs : List Index}
    (hEach : qubits.mapM b.qubit = .ok qs) :
    ∃ slots : List Slot, qs = slots.map Index.line ∧ slots.length = qubits.length ∧
      ∀ s ∈ slots, s.toValue.position? = some (s.toNat : Int) ∧ s.toNat < n := by
  have hAll := mapM_eq_ok_iff.mp hEach
  clear hEach
  induction hAll with
  | nil => exact ⟨[], rfl, rfl, by simp⟩
  | cons hHead hTail ih =>
    rcases ih (fun q hM => hWhole q (mem_cons_of_mem _ hM)) with
      ⟨slots, rfl, hLen, hSlots⟩
    rcases exists_slot_of_indexBelow hCount (hWhole _ mem_cons_self) hHead with
      ⟨s, rfl, hSpd, hLt⟩
    refine ⟨s :: slots, rfl, congrArg (· + 1) hLen, ?_⟩
    intro t hM
    rcases mem_cons.mp hM with rfl | hRest
    · exact ⟨hSpd, hLt⟩
    · exact hSlots t hRest

theorem nodup_of_repeats {slots : List Slot}
    (hSpd : ∀ s ∈ slots, s.toValue.position? = some (s.toNat : Int))
    (hRepeats : Index.repeats (slots.map Index.line) = false) : (slots.map Slot.toNat).Nodup := by
  induction slots with
  | nil => exact nodup_nil
  | cons s slots ih =>
    rw [map_cons, Index.repeats, Bool.or_eq_false_iff] at hRepeats
    rw [map_cons, nodup_cons]
    refine ⟨fun hM => ?_, ih (fun t hM => hSpd t (mem_cons_of_mem _ hM)) hRepeats.2⟩
    rcases mem_map.mp hM with ⟨t, hSlot, hEq⟩
    have hAgrees := Value.agrees_of_position? (hSpd s mem_cons_self)
      (hSpd t (mem_cons_of_mem _ hSlot))
    rw [any_eq_false] at hRepeats
    refine hRepeats.1 (.line t) (mem_map_of_mem hSlot) ?_
    simpa [Index.same, Index.toValue, hEq] using hAgrees

end Builder

---- Built Circuits ----

mutual

def Call.isMethod : Call → Bool
  | .add kind qubits params => kind.isGate && kind != .measure && qubits.length == kind.qubits
      && params.length == kind.arity && qubits.all (fun q => q.position?.isSome)
  | .measure q c => q.position?.isSome && (!c.isPresent || c.position?.isSome)
  | .block bit calls => bit.position?.isSome && Call.areMethods calls
  | _ => true

def Call.areMethods : List Call → Bool
  | [] => true
  | call :: calls => call.isMethod && Call.areMethods calls

end

namespace Builder

/- A circuit under construction whose operations all fit, as does the current condition. -/
structure Fits (n m : Nat) (b : Builder) : Prop where
  qubits : b.circuit.qubits.position? = some (n : Int)
  bits : b.circuit.bits.position? = some (m : Int)
  ops : ∀ op ∈ b.circuit.ops, op.Fits n m
  condition : ∀ c, b.condition = some c → ∃ s : Slot, c = .line s ∧ s.toNat < m

variable {n m : Nat} {b b' : Builder}

theorem Fits.add (hFits : b.Fits n m) {kind : Kind} {qubits params : List Value}
    {bit : Option Index} (hGate : kind.isGate = true) (hCount : qubits.length = kind.qubits)
    (hParams : params.length = kind.arity) (hWhole : ∀ q ∈ qubits, q.position?.isSome = true)
    (hMeasured : kind = .measure → ∃ s : Slot, bit = some (.line s) ∧ s.toNat < m)
    (hUnmeasured : kind ≠ .measure → bit = none) (hAdd : b.add kind qubits params bit = .ok b') :
    b'.Fits n m := by
  unfold Builder.add at hAdd
  rcases bind_eq_ok_iff.mp hAdd with ⟨qs, hQubits, hRest⟩
  rcases exists_slots_of_mapM hFits.qubits hWhole hQubits with ⟨slots, rfl, hLen, hSlots⟩
  by_cases hRepeats : Index.repeats (slots.map Index.line) = true
  · rw [if_pos hRepeats] at hRest
    cases hRest
  rw [if_neg hRepeats] at hRest
  rcases bind_eq_ok_iff.mp hRest with ⟨ps, hRead, hLast⟩
  cases hLast
  refine ⟨hFits.qubits, hFits.bits, ?_, hFits.condition⟩
  intro op hM
  rcases mem_append.mp hM with hOld | hNew
  · exact hFits.ops op hOld
  rw [mem_singleton.mp hNew]
  refine ⟨hGate, (length_of_mapM hRead).trans hParams, ⟨slots, rfl, hLen.trans hCount, ?_, ?_⟩,
    hMeasured, hUnmeasured, hFits.condition⟩
  · exact nodup_of_repeats (fun s hM => (hSlots s hM).1) (by simpa using hRepeats)
  · exact fun s hM => (hSlots s hM).2

theorem Fits.measure (hFits : b.Fits n m) {q c : Value} (hWhole : q.position?.isSome = true)
    (hTarget : c.isPresent = true → c.position?.isSome = true) (hMeasure : b.measure q c = .ok b') :
    b'.Fits n m := by
  unfold Builder.measure at hMeasure
  rcases bind_eq_ok_iff.mp hMeasure with ⟨bit, hBit, hAdd⟩
  have hIndex : (if c.isPresent then c else q).position?.isSome = true := by
    split
    · exact hTarget ‹_›
    · exact hWhole
  rcases exists_slot_of_indexBelow hFits.bits hIndex hBit with ⟨s, rfl, -, hLt⟩
  refine hFits.add rfl rfl rfl ?_ (fun _ => ⟨s, rfl, hLt⟩) (fun hNot => absurd rfl hNot) hAdd
  simpa using hWhole

mutual

theorem Fits.follow {b b' : Builder} (hFits : b.Fits n m) :
    (call : Call) → call.isMethod = true → b.follow call = .ok b' → b'.Fits n m
  | .add kind qubits params, hMethod, hFollow => by
    simp only [Call.isMethod, Bool.and_eq_true, bne_iff_ne, beq_iff_eq, all_eq_true] at hMethod
    rcases hMethod with ⟨⟨⟨⟨hGate, hNot⟩, hCount⟩, hParams⟩, hWhole⟩
    rw [Builder.follow] at hFollow
    exact hFits.add hGate hCount hParams hWhole (fun hKind => absurd hKind hNot) (fun _ => rfl)
      hFollow
  | .measure q c, hMethod, hFollow => by
    simp only [Call.isMethod, Bool.and_eq_true, Bool.or_eq_true, Bool.not_eq_true'] at hMethod
    rw [Builder.follow] at hFollow
    refine hFits.measure hMethod.1 (fun hPresent => ?_) hFollow
    exact hMethod.2.resolve_left (by simp [hPresent])
  | .inverse, _, hFollow => by
    rw [Builder.follow] at hFollow
    rcases bind_eq_ok_iff.mp hFollow with ⟨_, -, hSame⟩
    cases hSame
    exact hFits
  | .block bit calls, hMethod, hFollow => by
    simp only [Call.isMethod, Bool.and_eq_true] at hMethod
    rw [Builder.follow] at hFollow
    rcases bind_eq_ok_iff.mp hFollow with ⟨c, hBit, hRest⟩
    rcases bind_eq_ok_iff.mp hRest with ⟨inner, hIn, hLast⟩
    rcases exists_slot_of_indexBelow hFits.bits hMethod.1 hBit with ⟨s, rfl, -, hLt⟩
    have hEnter : Builder.Fits n m { b with condition := some (.line s) } :=
      ⟨hFits.qubits, hFits.bits, hFits.ops, fun c hSome => ⟨s, (Option.some.inj hSome).symm, hLt⟩⟩
    have hAfter := Fits.followAll hEnter calls hMethod.2 hIn
    cases hLast
    exact ⟨hAfter.qubits, hAfter.bits, hAfter.ops, by simp⟩
  | .refused fault, _, hFollow => by
    rw [Builder.follow] at hFollow
    cases hFollow
  | .broken fault, _, hFollow => by
    rw [Builder.follow] at hFollow
    cases hFollow

theorem Fits.followAll {b b' : Builder} (hFits : b.Fits n m) :
    (calls : List Call) → Call.areMethods calls = true → b.followAll calls = .ok b' → b'.Fits n m
  | [], _, hFollow => by
    rw [Builder.followAll] at hFollow
    cases hFollow
    exact hFits
  | call :: calls, hMethods, hFollow => by
    rw [Call.areMethods, Bool.and_eq_true] at hMethods
    rw [Builder.followAll] at hFollow
    rcases bind_eq_ok_iff.mp hFollow with ⟨mid, hHead, hTail⟩
    exact Fits.followAll (Fits.follow hFits call hMethods.1 hHead) calls hMethods.2 hTail

end

end Builder

theorem Circuit.fits_of_build {n m : Nat} {qubits bits : Value}
    (hQubits : qubits.position? = some (n : Int)) (hBits : bits.position? = some (m : Int))
    {calls : List Call} (hMethods : Call.areMethods calls = true) {c : Circuit}
    (hBuild : Circuit.build qubits bits calls = .ok c) :
    c.qubits.position? = some (n : Int) ∧ c.bits.position? = some (m : Int) ∧
      ∀ op ∈ c.ops, op.Fits n m := by
  rcases bind_eq_ok_iff.mp hBuild with ⟨b, hFollow, hLast⟩
  cases hLast
  have hStart : (Builder.start qubits bits).Fits n m :=
    ⟨hQubits, hBits, fun op hM => absurd hM (not_mem_nil), fun c hNone => by cases hNone⟩
  have hFits := hStart.followAll calls hMethods hFollow
  exact ⟨hFits.qubits, hFits.bits, hFits.ops⟩

end CircuitGraph
