import CircuitGraph.Circuit.Basic
import CircuitGraph.Proofs.Meaning.Classical

/-
  The execution of circuits on true and false.

  The lines of a circuit are its qubits followed by its bits,
  each with true or false on it.
-/

---- Values on Lines ----

namespace CircuitGraph

open List

variable {ns : List Nat} {n qubits : Nat}

variable {V : Type}

def put (s : Nat → V) : List Nat → List V → Nat → V
  | n :: ns, v :: vs => Function.update (put s ns vs) n v
  | _, _ => s

theorem put_of_not_mem (hNot : n ∉ ns) (s : Nat → V) (vs : List V) : put s ns vs n = s n := by
  induction ns generalizing vs with
  | nil => rfl
  | cons m ns ih =>
    rw [mem_cons, not_or] at hNot
    cases vs with
    | nil => rfl
    | cons v vs =>
      rw [put, Function.update_of_ne hNot.1]
      exact ih hNot.2 vs

theorem put_of_getElem? {vs : List V} {i : Nat} {v : V} (hNodup : ns.Nodup)
    (hLine : ns[i]? = some n) (hValue : vs[i]? = some v) (s : Nat → V) : put s ns vs n = v := by
  induction ns generalizing vs i with
  | nil => simp at hLine
  | cons m ns ih =>
    cases vs with
    | nil => simp at hValue
    | cons w vs =>
      rw [nodup_cons] at hNodup
      cases i with
      | zero =>
        obtain rfl : m = n := by simpa using hLine
        obtain rfl : w = v := by simpa using hValue
        rw [put, Function.update_self]
      | succ i =>
        rw [getElem?_cons_succ] at hLine hValue
        have hNe : n ≠ m := by
          rintro rfl
          exact hNodup.1 (mem_of_getElem? hLine)
        rw [put, Function.update_of_ne hNe]
        exact ih hNodup.2 hLine hValue

theorem map_put {vs : List V} (hNodup : ns.Nodup) (hLen : vs.length = ns.length) (s : Nat → V) :
    ns.map (put s ns vs) = vs := by
  apply ext_getElem?
  intro i
  rw [getElem?_map]
  cases hLine : ns[i]? with
  | none =>
    rw [List.getElem?_eq_none_iff] at hLine
    rw [Option.map_none, getElem?_eq_none (hLen ▸ hLine)]
  | some n =>
    have hBound : i < vs.length := hLen ▸ (lt_of_getElem? hLine)
    have hValue : vs[i]? = some vs[i] := getElem?_eq_getElem hBound
    rw [Option.map_some, put_of_getElem? hNodup hLine hValue, hValue]

---- Operations ----

namespace Operation

def lines (qubits : Nat) (op : Operation) : List Nat :=
  op.qubits.filterMap Index.toNat? ++ ((op.bit.bind Index.toNat?).map (qubits + ·)).toList

def runs (qubits : Nat) (op : Operation) (s : Nat → Bool) : Bool :=
  match op.condition with
  | none => true
  | some k => (k.toNat?.map (fun n => s (qubits + n))).getD false

def execute (qubits : Nat) (op : Operation) (s : Nat → Bool) : Nat → Bool :=
  if op.runs qubits s then
    put s (op.lines qubits) (Interpretation.classicalGate op.kind ((op.lines qubits).map s))
  else s

def runAll (qubits : Nat) (ops : List Operation) (s : Nat → Bool) : Nat → Bool :=
  ops.foldl (fun s op => op.execute qubits s) s

def under (k : Index) (op : Operation) : Operation :=
  { op with condition := some k }

@[simp]
theorem runAll_cons (qubits : Nat) (op : Operation) (ops : List Operation) (s : Nat → Bool) :
    runAll qubits (op :: ops) s = runAll qubits ops (op.execute qubits s) :=
  rfl

theorem runAll_append (qubits : Nat) (ops ops' : List Operation) (s : Nat → Bool) :
    runAll qubits (ops ++ ops') s = runAll qubits ops' (runAll qubits ops s) :=
  foldl_append

theorem execute_untouched {op : Operation} (hNot : n ∉ op.lines qubits) (s : Nat → Bool) :
    op.execute qubits s n = s n := by
  unfold execute
  split
  · exact put_of_not_mem hNot s _
  · rfl

theorem runAll_untouched {ops : List Operation} (hNot : ∀ op ∈ ops, n ∉ op.lines qubits)
    (s : Nat → Bool) : runAll qubits ops s n = s n := by
  induction ops generalizing s with
  | nil => rfl
  | cons op ops ih =>
    rw [runAll_cons, ih (fun other hOther => hNot other (mem_cons_of_mem op hOther)),
      execute_untouched (hNot op mem_cons_self)]

theorem execute_of_condition_none {op : Operation} (hNone : op.condition = none) (qubits : Nat)
    (s : Nat → Bool) : op.execute qubits s =
      put s (op.lines qubits) (Interpretation.classicalGate op.kind ((op.lines qubits).map s)) := by
  simp [execute, runs, hNone]

@[simp]
theorem runs_under (qubits k : Nat) (op : Operation) (s : Nat → Bool) :
    (op.under (.number k)).runs qubits s = s (qubits + k) :=
  rfl

theorem runAll_under_unset {k : Nat} {s : Nat → Bool} (hUnset : s (qubits + k) = false)
    (ops : List Operation) : runAll qubits (ops.map (under (.number k))) s = s := by
  induction ops with
  | nil => rfl
  | cons op ops ih =>
    have hStays : (op.under (.number k)).execute qubits s = s := by
      simp [execute, hUnset]
    rw [map_cons, runAll_cons, hStays, ih]

theorem runAll_under_set {k : Nat} {s : Nat → Bool} {ops : List Operation}
    (hSet : s (qubits + k) = true) (hPlain : ∀ op ∈ ops, op.condition = none)
    (hNot : ∀ op ∈ ops.dropLast, qubits + k ∉ op.lines qubits) :
    runAll qubits (ops.map (under (.number k))) s = runAll qubits ops s := by
  induction ops generalizing s with
  | nil => rfl
  | cons op ops ih =>
    have hRuns : (op.under (.number k)).execute qubits s = op.execute qubits s := by
      rw [execute_of_condition_none (hPlain op mem_cons_self), execute, runs_under, hSet,
        if_pos rfl]
      rfl
    rw [map_cons, runAll_cons, hRuns, runAll_cons]
    cases ops with
    | nil => rfl
    | cons other ops =>
      rw [dropLast_cons_cons] at hNot
      have hStill : op.execute qubits s (qubits + k) = true := by
        rw [execute_untouched (hNot op mem_cons_self), hSet]
      apply ih hStill
      · intro later hLater
        exact hPlain later (mem_cons_of_mem op hLater)
      · intro later hLater
        exact hNot later (mem_cons_of_mem op hLater)

end Operation

/- A way to execute operations, each on its own lines, on values of any kind. -/
structure Execution (V : Type) (qubits : Nat) where
  run : List Operation → (Nat → V) → Nat → V
  nil : ∀ s, run [] s = s
  append : ∀ ops ops' s, run (ops ++ ops') s = run ops' (run ops s)
  untouched : ∀ {ops n}, (∀ op ∈ ops, n ∉ op.lines qubits) → ∀ s, run ops s n = s n

@[reducible]
def Execution.classical (qubits : Nat) : Execution Bool qubits where
  run := Operation.runAll qubits
  nil _ := rfl
  append := Operation.runAll_append qubits
  untouched := Operation.runAll_untouched

namespace Circuit

/-
  What is on the lines of a circuit in the end, given what is
  on them at the start.
-/
def execute (c : Circuit) (xs : List Bool) : List Bool :=
  (List.range xs.length).map
    (Operation.runAll (c.qubits.natural?.getD 0) c.ops (fun n => xs.getD n false))

end Circuit

end CircuitGraph
